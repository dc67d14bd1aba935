/-! # Binary floating-point words

What the bits of a word denote, read exactly. Both widths go through one reader, so
floors, integer parts and decimal digits are computed on natural numbers and never
on rounded values.
-/

namespace PixelKernel

/-! Powers and sums mean those of the core library, whichever other ones are imported. -/

@[default_instance 100000]
instance (priority := 100000) corePow {α : Type} [NatPow α] : Pow α Nat := instPowNat

instance (priority := 100000) natZero : Zero Nat := Zero.ofOfNat0

/-- The number that a floating-point word denotes: `mantissa * 2 ^ exponent` when finite. -/
inductive Binary where
  | nan
  | infinite (negative : Bool)
  | finite (negative : Bool) (mantissa : Nat) (exponent : Int)
  deriving Repr, DecidableEq

namespace Binary

/-- Bit counts of the stored fraction and of the exponent. -/
structure Width where
  fraction : Nat
  exponent : Nat
  deriving Repr, DecidableEq

def single : Width := ⟨23, 8⟩

def double : Width := ⟨52, 11⟩

namespace Width

/-- The exponent of a subnormal word's unit. -/
def lowest (w : Width) : Int := 2 - 2 ^ (w.exponent - 1) - w.fraction

end Width

def ofBits (w : Width) (bits : Nat) : Binary :=
  let fraction := bits % 2 ^ w.fraction
  let stored := bits / 2 ^ w.fraction % 2 ^ w.exponent
  let negative := bits / 2 ^ (w.fraction + w.exponent) % 2 == 1
  if stored + 1 = 2 ^ w.exponent then
    if fraction = 0 then .infinite negative else .nan
  else if stored = 0 then .finite negative fraction w.lowest
  else .finite negative (2 ^ w.fraction + fraction) (w.lowest + (stored - 1))

def ofFloat (x : Float) : Binary := ofBits double x.toBits.toNat

def ofFloat32 (x : Float32) : Binary := ofBits single x.toBits.toNat

/-- Greatest integer that is not above `m * 2 ^ e`, negated first if asked. -/
def floorFinite (negative : Bool) (m : Nat) (e : Int) : Int :=
  match e with
  | .ofNat k => let n : Int := (m * 2 ^ k : Nat); if negative then -n else n
  | .negSucc k =>
    let n : Int := m
    Int.fdiv (if negative then -n else n) (2 ^ (k + 1))

end Binary

/-- `n` held between `-2 ^ 63` and `2 ^ 63 - 1`. -/
def clampInt64 (n : Int) : Int := max (-9223372036854775808) (min n 9223372036854775807)

namespace Binary

/-- Nearest natural number to `m * 2 ^ e`, a half going up. -/
def nearestNat (m : Nat) : Int → Nat
  | .ofNat k => m * 2 ^ k
  | .negSucc k => (2 * m + 2 ^ (k + 1)) / 2 ^ (k + 2)

/-- Nearest byte; halves go up, and what is below zero or NaN is zero. -/
def nearestByte : Binary → UInt8
  | .nan => 0
  | .infinite negative => if negative then 0 else 255
  | .finite negative m e => if negative then 0 else UInt8.ofNat (min 255 (nearestNat m e))

/-- Floor held in the signed 64-bit range; NaN has floor zero. -/
def floor64 : Binary → Int
  | .nan => 0
  | .infinite negative => if negative then -9223372036854775808 else 9223372036854775807
  | .finite negative m e =>
    -- far beyond the range the power itself would be needlessly large
    if e > 64 ∧ m ≠ 0 then
      if negative then -9223372036854775808 else 9223372036854775807
    else clampInt64 (floorFinite negative m e)

open Float.Model (UnpackedFloat) in
/-- The single-precision number nearest to a double-precision one, ties going to the even
    neighbour. -/
def narrow (x : Float) : Float32 :=
  .ofModel (.pack (match x.toModel.unpack with
    | .finite sign m e _ => UnpackedFloat.round .binary32 sign m e
    | other => other))

open Float.Model (UnpackedFloat) in
/-- The same number in double precision. -/
def widen (x : Float32) : Float :=
  .ofModel (.pack (match x.toModel.unpack with
    | .finite sign m e _ => UnpackedFloat.round .binary64 sign m e
    | other => other))

end Binary
end PixelKernel
