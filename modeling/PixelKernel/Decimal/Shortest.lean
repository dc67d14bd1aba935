import PixelKernel.Number.Binary

/-! # Shortest decimal digits

The fewest decimal digits that read back as the same floating-point number, found on
exact fractions. A grid of `n` digits is tried for `n = 1, 2, …`; the first grid with a
point in the rounding interval of the number gives the digits.
-/

namespace PixelKernel.Decimal

/-- `digits * 10 ^ exponent`. -/
structure Scaled where
  digits : Nat
  exponent : Int
  deriving Repr, DecidableEq

/-- The positive reals that round to one float, as fractions over a common denominator. -/
structure Interval where
  value : Nat
  low : Nat
  high : Nat
  scale : Nat
  closed : Bool
  deriving Repr

namespace Interval

/-- The interval around `m * 2 ^ e`. Below a power of two the neighbour is nearer, unless
    that power is the least normal number. -/
def around (w : Binary.Width) (m : Nat) (e : Int) : Interval :=
  let narrow := m = 2 ^ w.fraction ∧ e ≠ w.lowest
  let value := 4 * m
  let low := if narrow then 4 * m - 1 else 4 * m - 2
  let high := 4 * m + 2
  match e - 2 with
  | .ofNat k => ⟨value * 2 ^ k, low * 2 ^ k, high * 2 ^ k, 1, m % 2 == 0⟩
  | .negSucc k => ⟨value, low, high, 2 ^ (k + 1), m % 2 == 0⟩

def contains (i : Interval) (numerator denominator : Nat) : Bool :=
  let x := numerator * i.scale
  let lo := i.low * denominator
  let hi := i.high * denominator
  if i.closed then lo ≤ x && x ≤ hi else lo < x && x < hi

end Interval

/-- The grid `10 ^ k`, as a fraction. -/
def unit : Int → Nat × Nat
  | .ofNat k => (10 ^ k, 1)
  | .negSucc k => (1, 10 ^ (k + 1))

/-- Number of decimal digits of `n`, one for zero. -/
def width (n : Nat) : Nat := (Nat.toDigits 10 n).length

/-- The `p` with `10 ^ p ≤ numerator / denominator < 10 ^ (p + 1)`, both positive. -/
def magnitude (numerator denominator : Nat) : Int :=
  if denominator ≤ numerator then (width (numerator / denominator) : Int) - 1
  else
    let steps := width (denominator / numerator)
    -- `denominator / numerator < 10 ^ steps`, so one of two powers is right
    if denominator ≤ numerator * 10 ^ (steps - 1) then 1 - (steps : Int) else -(steps : Int)

/-- How an exact tie between two neighbours of a grid is decided. -/
inductive Tie where
  | up
  | even
  deriving Repr, DecidableEq

/-- The point of the grid `10 ^ k` that stands for the number, if the interval has one. -/
def onGrid? (tie : Tie) (i : Interval) (k : Int) : Option Nat :=
  let (num, den) := unit k
  let q := i.value * den / (i.scale * num)
  let below := i.contains (q * num) den
  let above := i.contains ((q + 1) * num) den
  match below, above with
  | false, false => none
  | true, false => some q
  | false, true => some (q + 1)
  | true, true =>
    let rest := 2 * (i.value * den % (i.scale * num))
    match compare rest (i.scale * num) with
    | .lt => some q
    | .gt => some (q + 1)
    | .eq => if tie = .even ∧ q % 2 = 0 then some q else some (q + 1)

/-- Moves trailing zeros of the digits into the exponent. -/
def Scaled.trim (s : Scaled) : Scaled :=
  if h : s.digits ≠ 0 ∧ s.digits % 10 = 0 then
    Scaled.trim ⟨s.digits / 10, s.exponent + 1⟩
  else s
termination_by s.digits
decreasing_by omega

/-- Tries the grids from `n` digits on; seventeen digits always suffice. -/
def search (tie : Tie) (i : Interval) (p : Int) : (n fuel : Nat) → Scaled
  | n, 0 => ⟨(onGrid? tie i (p + 1 - n)).getD 0, p + 1 - n⟩
  | n, fuel + 1 =>
    match onGrid? tie i (p + 1 - n) with
    | some d => ⟨d, p + 1 - n⟩
    | none => search tie i p (n + 1) fuel

/-- Shortest digits of the positive number `m * 2 ^ e` of width `w`. -/
def shortest (w : Binary.Width) (tie : Tie) (m : Nat) (e : Int) : Scaled :=
  let i := Interval.around w m e
  (search tie i (magnitude i.value i.scale) 1 16).trim

end PixelKernel.Decimal
