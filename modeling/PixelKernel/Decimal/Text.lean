import PixelKernel.Decimal.Shortest

/-! # Decimal text of floats

A `Style` says how chosen digits are laid out. The styles in use share the digits and
differ in where positional writing ends, in what a whole number keeps, and in the sign of
the exponent.
-/

namespace PixelKernel.Decimal

/-- Positional writing covers numbers whose leading digit stands `p` places left of the
    point for `lowest < p ≤ highest`; with no bounds it covers all. -/
structure Style where
  bounds : Option (Int × Int)
  /-- A whole number ends in a point and a zero. -/
  wholePoint : Bool
  /-- An exponent that is not negative has a sign. -/
  plus : Bool
  tie : Tie
  deriving Repr

namespace Style

/-- Always shows that the number is a float, and keeps extreme magnitudes short. -/
def tagged : Style := ⟨some (-4, 16), true, false, .up⟩

/-- Plain digits, however many. -/
def plain : Style := ⟨none, false, false, .up⟩

/-- Records of single precision. -/
def record : Style := ⟨some (-6, 13), true, true, .even⟩

/-- Numbers of double precision in data. -/
def data : Style := ⟨some (-5, 16), true, true, .even⟩

end Style

def zeros (n : Nat) : String := String.ofList (List.replicate n '0')

/-- Positional text of `digits * 10 ^ exponent`. -/
def positional (wholePoint : Bool) (s : Scaled) : String :=
  let text := toString s.digits
  let point := (text.length : Int) + s.exponent
  match s.exponent with
  | .ofNat k => text ++ zeros k ++ (if wholePoint then ".0" else "")
  | .negSucc _ =>
    if 0 < point then
      let whole := text.toList.take point.toNat
      let part := text.toList.drop point.toNat
      String.ofList whole ++ "." ++ String.ofList part
    else "0." ++ zeros (-point).toNat ++ text

/-- One digit before the point, the rest after it, and the exponent behind an `e`. -/
def scientific (plus : Bool) (s : Scaled) : String :=
  let text := (toString s.digits).toList
  let n := (text.length : Int) + s.exponent - 1
  let power := (if plus && 0 ≤ n then "+" else "") ++ toString n
  match text with
  | [] => "0e0"
  | [d] => String.singleton d ++ "e" ++ power
  | d :: rest => String.singleton d ++ "." ++ String.ofList rest ++ "e" ++ power

def Style.layout (style : Style) (s : Scaled) : String :=
  let point := (width s.digits : Int) + s.exponent
  match style.bounds with
  | none => positional style.wholePoint s
  | some (lowest, highest) =>
    if lowest < point ∧ point ≤ highest then positional style.wholePoint s else scientific style.plus s

/-- Text of a number; `NaN` and `inf` when there are no digits. -/
def text (style : Style) (w : Binary.Width) : Binary → String
  | .nan => "NaN"
  | .infinite negative => if negative then "-inf" else "inf"
  | .finite negative m e =>
    let body :=
      if m = 0 then (if style.wholePoint then "0.0" else "0")
      else style.layout (shortest w style.tie m e)
    if negative then "-" ++ body else body

def textFloat (style : Style) (x : Float) : String :=
  text style Binary.double (Binary.ofFloat x)

def textFloat32 (style : Style) (x : Float32) : String :=
  text style Binary.single (Binary.ofFloat32 x)

/-- The double nearest to `digits * 10 ^ exponent`; extreme exponents are settled without
    building the power. -/
def nearest (s : Scaled) : Float :=
  if s.digits = 0 then 0
  else
    let point := (width s.digits : Int) + s.exponent
    if point > 310 then Float.ofBits 0x7ff0000000000000
    else if point < -330 then 0
    else match s.exponent with
      | .ofNat k => Float.ofScientific s.digits false k
      | .negSucc k => Float.ofScientific s.digits true (k + 1)

end PixelKernel.Decimal
