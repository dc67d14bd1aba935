import PixelKernel.Png.Checksum

/-! # Stored streams

Compressed streams in which nothing is compressed: a two-byte head, blocks of at most
65535 bytes with their length and its complement, and a sum. Reading wants the sum to be
there, whatever it is.
-/

namespace PixelKernel.Png

/-- Why image data cannot be read. -/
inductive ReadFault where
  /-- The bytes end too early. -/
  | ended
  | damaged
  deriving Repr, DecidableEq

namespace Stored

def largest : Nat := 65535

/-- Two bytes, the least significant first. -/
def half (n : Nat) : List UInt8 := [UInt8.ofNat n, UInt8.ofNat (n / 256)]

def block (last : Bool) (bytes : List UInt8) : List UInt8 :=
  (if last then 1 else 0) :: half bytes.length ++ half (largest - bytes.length) ++ bytes

def blocks (bytes : List UInt8) : List UInt8 :=
  if _h : bytes.length ≤ largest then block true bytes
  else block false (bytes.take largest) ++ blocks (bytes.drop largest)
termination_by bytes.length
decreasing_by simp [largest] at *; omega

def encode (bytes : List UInt8) : List UInt8 :=
  [0x78, 0x01] ++ blocks bytes ++ word (adler bytes)

def decodeBlocks (bytes : List UInt8) : Except ReadFault (List UInt8) :=
  match bytes with
  | head :: a :: b :: c :: d :: rest =>
    if head % 8 > 1 ∨ a ^^^ c ≠ 255 ∨ b ^^^ d ≠ 255 then .error .damaged
    else
      let n := a.toNat + 256 * b.toNat
      if rest.length < n then .error .ended
      else if head % 8 = 1 then
        if rest.length < n + 4 then .error .ended else .ok (rest.take n)
      else do return rest.take n ++ (← decodeBlocks (rest.drop n))
  | _ => .error .ended
termination_by bytes.length
decreasing_by simp only [List.length_drop, List.length_cons]; omega

def decode : List UInt8 → Except ReadFault (List UInt8)
  | a :: b :: rest =>
    if a % 16 ≠ 8 ∨ (a.toNat * 256 + b.toNat) % 31 ≠ 0 then .error .damaged
    else decodeBlocks rest
  | _ => .error .ended

end Stored
end PixelKernel.Png
