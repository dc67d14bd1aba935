import PixelKernel.Json.Value

/-! # Reading JSON

Text is read byte by byte. A byte is looked at as the character with its code: one of 128
or more is part of a longer character, which has no place outside of strings. Faults carry
the number of bytes that were read, or peeked at, when they were noticed. Nesting is
bounded, which also bounds the reader's recursion.
-/

namespace PixelKernel.Json

inductive Fault where
  | endOfList | endOfObject | endOfString | endOfValue
  | expectedColon | expectedListEnd | expectedObjectEnd
  | expectedIdent | expectedValue
  | invalidEscape | invalidNumber | numberOutOfRange
  | controlCharacter | keyNotString
  | loneSurrogate | hexEscapeEnd
  | trailingComma | trailingCharacters
  | tooDeep
  deriving Repr, DecidableEq

def Fault.text : Fault → String
  | endOfList => "EOF while parsing a list"
  | endOfObject => "EOF while parsing an object"
  | endOfString => "EOF while parsing a string"
  | endOfValue => "EOF while parsing a value"
  | expectedColon => "expected \x60:\x60"
  | expectedListEnd => "expected \x60,\x60 or \x60]\x60"
  | expectedObjectEnd => "expected \x60,\x60 or \x60\x7d\x60"
  | expectedIdent => "expected ident"
  | expectedValue => "expected value"
  | invalidEscape => "invalid escape"
  | invalidNumber => "invalid number"
  | numberOutOfRange => "number out of range"
  | controlCharacter => "control character (\\u0000-\\u001F) found while parsing a string"
  | keyNotString => "key must be a string"
  | loneSurrogate => "lone leading surrogate in hex escape"
  | hexEscapeEnd => "unexpected end of hex escape"
  | trailingComma => "trailing comma"
  | trailingCharacters => "trailing characters"
  | tooDeep => "recursion limit exceeded"

/-- Where reading stands: how many bytes are read, and those still to come. -/
structure Cursor where
  index : Nat
  rest : List UInt8

abbrev Reader := StateT Cursor (Except (Fault × Nat))

namespace Reader

/-- Most lists and objects inside one another. -/
def maxDepth : Nat := 127

/-- A fault at the bytes read so far. -/
def fail {α : Type} (f : Fault) : Reader α := fun c => .error (f, c.index)

/-- A fault at the byte that comes next. -/
def failNext {α : Type} (f : Fault) : Reader α := fun c =>
  .error (f, c.index + (if c.rest.isEmpty then 0 else 1))

/-- The character with a byte's code. -/
def seen (b : UInt8) : Char := Char.ofNat b.toNat

def peek : Reader (Option Char) := fun c => .ok (c.rest.head?.map seen, c)

def skip : Reader Unit := fun c =>
  match c.rest with
  | [] => .ok ((), c)
  | _ :: rest => .ok ((), ⟨c.index + 1, rest⟩)

def next : Reader (Option Char) := do
  let c ← peek
  skip
  return c

/-- Takes so many bytes. -/
def take (n : Nat) : Reader (List Char) := fun c =>
  let taken := c.rest.take n
  .ok (taken.map seen, ⟨c.index + taken.length, c.rest.drop n⟩)

/-- Takes bytes while they satisfy `p`. -/
def takeWhile (p : Char → Bool) : Reader (List Char) := fun c =>
  let taken := c.rest.takeWhile fun b => p (seen b)
  .ok (taken.map seen, ⟨c.index + taken.length, c.rest.drop taken.length⟩)

def isBlank (c : Char) : Bool := c = ' ' || c = '\n' || c = '\t' || c = '\r'

/-- The next character that is no blank. -/
def peekToken : Reader (Option Char) := do
  let _ ← takeWhile isBlank
  peek

/-- The rest of a literal word. -/
def word : List Char → Reader Unit
  | [] => return ()
  | c :: cs => do
    match ← next with
    | none => fail .endOfValue
    | some d => if d = c then word cs else fail .expectedIdent

def digits (cs : List Char) : Nat := cs.foldl (fun n c => 10 * n + (c.toNat - 48)) 0

/-- The number `±n * 10 ^ e`. -/
def scaled (negative : Bool) (n : Nat) (e : Int) : Reader Json := do
  let x := Decimal.nearest ⟨n, e⟩
  if x.isInf then fail .numberOutOfRange
  return .float (if negative then -x else x)

/-- Largest exponent whose digits are all looked at. -/
def maxExponent : Nat := 2 ^ 31 - 1

/-- Takes the digits of an exponent, up to the one that makes it too large. -/
def exponentDigits : Reader (List Char) := fun c =>
  let ds := (c.rest.map seen).takeWhile Char.isDigit
  match (List.range ds.length).find? fun k => maxExponent < digits (ds.take k) with
  | some k => take k c
  | none => take ds.length c

/-- A number's exponent, if there is one, behind its other digits. -/
def exponent (negative : Bool) (n : Nat) (e : Int) : Reader Json := do
  match ← peek with
  | some 'e' | some 'E' =>
    skip
    let minus ← match ← peek with
      | some '+' => do skip; pure false
      | some '-' => do skip; pure true
      | _ => pure false
    let ds ← exponentDigits
    if ds.isEmpty then
      match ← next with
      | none => fail .endOfValue
      | some _ => fail .invalidNumber
    if maxExponent < digits ds then
      if !minus && n ≠ 0 then fail .numberOutOfRange
      let _ ← takeWhile Char.isDigit
      scaled negative 0 0
    else
      let shift : Int := if minus then -(digits ds : Int) else digits ds
      scaled negative n (e + shift)
  | _ => scaled negative n e

/-- What follows the whole part of a number. -/
def fraction (negative : Bool) (n : Nat) : Reader Json := do
  match ← peek with
  | some '.' =>
    skip
    let ds ← takeWhile Char.isDigit
    if ds.isEmpty then
      match ← peek with
      | none => failNext .endOfValue
      | some _ => failNext .invalidNumber
    exponent negative (n * 10 ^ ds.length + digits ds) (-(ds.length : Int))
  | some 'e' | some 'E' => exponent negative n 0
  | _ =>
    if negative then
      if n = 0 ∨ 2 ^ 63 < n then scaled true n 0 else return .int (-(n : Int))
    else if n < 2 ^ 64 then return .int n
    else scaled false n 0

def number (negative : Bool) : Reader Json := do
  match ← peek with
  | none => fail .endOfValue
  | some '0' =>
    skip
    match ← peek with
    | some d => if d.isDigit then failNext .invalidNumber else fraction negative 0
    | none => fraction negative 0
  | some c =>
    if c.isDigit then
      fraction negative (digits (← takeWhile Char.isDigit))
    else
      skip
      fail .invalidNumber

def hexValue? (c : Char) : Option Nat :=
  if c.isDigit then some (c.toNat - 48)
  else if 'a' ≤ c ∧ c ≤ 'f' then some (c.toNat - 87)
  else if 'A' ≤ c ∧ c ≤ 'F' then some (c.toNat - 55)
  else none

/-- Four hexadecimal digits. -/
def hexEscape : Reader Nat := do
  let ds ← take 4
  if ds.length < 4 then fail .endOfString
  match ds.mapM hexValue? with
  | some values => return values.foldl (16 * · + ·) 0
  | none => fail .invalidEscape

def expectEscape (c : Char) : Reader Unit := do
  match ← peek with
  | none => fail .endOfString
  | some d =>
    skip
    if d ≠ c then fail .hexEscapeEnd

def unicodeEscape : Reader Char := do
  let n ← hexEscape
  if 0xDC00 ≤ n ∧ n ≤ 0xDFFF then fail .loneSurrogate
  else if 0xD800 ≤ n ∧ n ≤ 0xDBFF then
    expectEscape '\\'
    expectEscape 'u'
    let m ← hexEscape
    if m < 0xDC00 ∨ 0xDFFF < m then fail .loneSurrogate
    return Char.ofNat (0x10000 + (n - 0xD800) * 1024 + (m - 0xDC00))
  else return Char.ofNat n

def escaped : Reader Char := do
  match ← next with
  | none => fail .endOfString
  | some '"' => return '"'
  | some '\\' => return '\\'
  | some '/' => return '/'
  | some 'b' => return '\x08'
  | some 'f' => return '\x0c'
  | some 'n' => return '\n'
  | some 'r' => return '\r'
  | some 't' => return '\t'
  | some 'u' => unicodeEscape
  | some _ => fail .invalidEscape

/-- The bytes left. Nothing has more parts than that. -/
def remaining : Reader (List UInt8) := fun c => .ok (c.rest, c)

/-- The characters up to the closing quote, at most one for each of the given bytes, behind
    those read before. -/
def stringRest : List UInt8 → ByteArray → Reader String
  | [], _ => fail .endOfString
  | _ :: bound, read => do
    match ← next with
    | none => fail .endOfString
    | some '"' => return (String.fromUTF8? read).getD ""
    | some '\\' => do
      let c ← escaped
      stringRest bound (read ++ (String.singleton c).toUTF8)
    | some c =>
      if c.toNat < 32 then fail .controlCharacter
      else stringRest bound (read.push c.toNat.toUInt8)

def string : Reader String := do stringRest (← remaining) .empty

/-- Items up to the closing bracket, at most one for each of the given bytes. -/
def items (value : Reader Json) : (first : Bool) → List UInt8 → Reader (List Json)
  | _, [] => fail .endOfList
  | first, _ :: bound => do
    match ← peekToken with
    | none => failNext .endOfList
    | some ']' => skip; return []
    | some c =>
      if !first then
        if c = ',' then
          skip
          match ← peekToken with
          | some ']' => failNext .trailingComma
          | some _ => pure ()
          | none => failNext .endOfValue
        else failNext .expectedListEnd
      let v ← value
      return v :: (← items value false bound)

/-- Fields up to the closing brace, at most one for each of the given bytes. -/
def fields (value : Reader Json) : (first : Bool) → List UInt8 → Reader (List (String × Json))
  | _, [] => fail .endOfObject
  | first, _ :: bound => do
    match ← peekToken with
    | none => failNext .endOfObject
    | some '\x7d' => skip; return []
    | some c =>
      if first then
        if c ≠ '"' then failNext .keyNotString
      else if c = ',' then
        skip
        match ← peekToken with
        | some '"' => pure ()
        | some '\x7d' => failNext .trailingComma
        | some _ => failNext .keyNotString
        | none => failNext .endOfValue
      else failNext .expectedObjectEnd
      skip
      let name ← string
      match ← peekToken with
      | some ':' => skip
      | some _ => failNext .expectedColon
      | none => failNext .endOfObject
      let v ← value
      return (name, v) :: (← fields value false bound)

/-- A value, given how to read a list and an object. -/
def valueOf (list object : Reader Json) : Reader Json := do
  match ← peekToken with
  | none => failNext .endOfValue
  | some 'n' => do skip; word ['u', 'l', 'l']; return .null
  | some 't' => do skip; word ['r', 'u', 'e']; return .bool true
  | some 'f' => do skip; word ['a', 'l', 's', 'e']; return .bool false
  | some '-' => do skip; number true
  | some '"' => do skip; return .str (← string)
  | some '[' => list
  | some '\x7b' => object
  | some c => if c.isDigit then number false else failNext .expectedValue

/-- A value with at most `room` lists and objects inside one another. -/
def value : (room : Nat) → Reader Json
  | 0 => valueOf (failNext .tooDeep) (failNext .tooDeep)
  | room + 1 =>
    valueOf
      (do
        skip
        return .arr (← items (value room) true (← remaining)))
      (do
        skip
        return .mkObj (← fields (value room) true (← remaining)))

def document : Reader Json := do
  let v ← value maxDepth
  match ← peekToken with
  | none => return v
  | some _ => failNext .trailingCharacters

end Reader

/-- Line and column that some bytes end at, both as the fault's text gives them. -/
def position (bytes : List UInt8) : Nat × Nat :=
  bytes.foldl (fun (line, column) (b : UInt8) => if b = 10 then (line + 1, 0) else (line, column + 1))
    (1, 0)

/-- Reads a whole text as one value. -/
def read (text : String) : Except String Json :=
  let bytes := text.toUTF8.data.toList
  match Reader.document.run ⟨0, bytes⟩ with
  | .ok (v, _) => .ok v
  | .error (f, n) =>
    let (line, column) := position (bytes.take n)
    .error (f.text ++ " at line " ++ toString line ++ " column " ++ toString column)

end PixelKernel.Json
