import PixelKernel.Decimal.Text

/-! # Reading decimal numbers

A sign, digits around a point of which some may be missing but not all, and an exponent;
or one of the words for what has no digits. Reading rounds once, to nearest.
-/

namespace PixelKernel.Decimal

def digitsValue (cs : List Char) : Nat := cs.foldl (fun n c => 10 * n + (c.toNat - '0'.toNat)) 0

/-- Takes a sign off; true for a minus. -/
def splitSign : List Char → Bool × List Char
  | '-' :: rest => (true, rest)
  | '+' :: rest => (false, rest)
  | cs => (false, cs)

/-- A whole number in digits, with or without a sign. -/
def readInt? (cs : List Char) : Option Int :=
  let (negative, ds) := splitSign cs
  if ds.isEmpty || !ds.all Char.isDigit then none
  else some (if negative then -(digitsValue ds : Int) else digitsValue ds)

/-- The exponent that a text ends with; nothing stands for zero. -/
def readExponent? : List Char → Option Int
  | [] => some 0
  | c :: rest => if c = 'e' ∨ c = 'E' then readInt? rest else none

/-- An unsigned number in digits. -/
def readScaled? (cs : List Char) : Option Scaled :=
  let whole := cs.takeWhile Char.isDigit
  let rest := cs.dropWhile Char.isDigit
  let (part, rest) := match rest with
    | '.' :: rest => (rest.takeWhile Char.isDigit, rest.dropWhile Char.isDigit)
    | rest => ([], rest)
  if whole.isEmpty && part.isEmpty then none
  else (readExponent? rest).map fun e =>
    ⟨digitsValue (whole ++ part), e - (part.length : Int)⟩

/-- The number that a text denotes. Words are read in any case. -/
def readFloat? (cs : List Char) : Option Float :=
  let (negative, body) := splitSign cs
  let magnitude : Option Float :=
    match String.ofList (body.map Char.toLower) with
    | "inf" | "infinity" => some (Float.ofBits 0x7ff0000000000000)
    | "nan" => some (Float.ofBits 0x7ff8000000000000)
    | _ => (readScaled? body).map nearest
  magnitude.map fun x => if negative then -x else x

end PixelKernel.Decimal
