/-! # Check sums

The two sums that guard images: a cyclic redundancy check over chunks, and a pair of
running sums over pixel data.
-/

namespace PixelKernel.Png

/-- One bit of polynomial division, the lowest bit first. -/
def crcBit (r : UInt32) : UInt32 :=
  if r &&& 1 = 1 then (r >>> 1) ^^^ 0xedb88320 else r >>> 1

def crcByte (r : UInt32) (b : UInt8) : UInt32 := Nat.repeat crcBit 8 (r ^^^ b.toUInt32)

def crc (bytes : List UInt8) : UInt32 := ~~~(bytes.foldl crcByte 0xffffffff)

/-- The sum of the bytes plus one, and above it the sum of all such sums. -/
def adler (bytes : List UInt8) : UInt32 :=
  let (a, b) := bytes.foldl (fun ((a, b) : Nat × Nat) byte =>
    let a := (a + byte.toNat) % 65521
    (a, (b + a) % 65521)) (1, 0)
  UInt32.ofNat (b * 65536 + a)

/-- Four bytes, the most significant first. -/
def word (n : UInt32) : List UInt8 :=
  [(n >>> 24).toUInt8, (n >>> 16).toUInt8, (n >>> 8).toUInt8, n.toUInt8]

/-- Reads four bytes, the most significant first. -/
def ofWord (b0 b1 b2 b3 : UInt8) : UInt32 :=
  b0.toUInt32 <<< 24 ||| b1.toUInt32 <<< 16 ||| b2.toUInt32 <<< 8 ||| b3.toUInt32

end PixelKernel.Png
