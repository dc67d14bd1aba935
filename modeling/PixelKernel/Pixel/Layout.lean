import PixelKernel.Fault
import PixelKernel.Pixel.Format

/-! # Pixel buffers

A layout says where the pixels of an image lie in a buffer. Sizes are 64-bit: one that
needs more is a fault. Reading and writing touch the bytes of pixels only.
-/

namespace PixelKernel.Pixel

/-- The format that a text from outside names. -/
def Format.read (text : String) : Except Fault Format :=
  match Format.parse? text with
  | some f => .ok f
  | none => .error (.format (.unknown text))

structure Layout where
  width : Nat
  height : Nat
  /-- Bytes between the starts of two rows. -/
  stride : Nat
  format : Format
  deriving Repr, DecidableEq

/-- `n` as a 64-bit size. -/
def size64? (n : Nat) : Option Nat := if n < 2 ^ 64 then some n else none

namespace Layout

/-- Rows one behind the other. -/
def packed (width height : Nat) (format : Format) : Layout :=
  ⟨width, height, width * format.bytesPerPixel, format⟩

/-- Bytes of the pixels of a row. -/
def rowBytes (l : Layout) : Except Fault Nat :=
  match size64? (l.width * l.format.bytesPerPixel) with
  | some n => .ok n
  | none => .error (.format .rowOverflow)

/-- Least length of a buffer that holds every pixel. -/
def requiredLength (l : Layout) : Except Fault Nat := do
  let row ← l.rowBytes
  if l.height = 0 ∨ row = 0 then return 0
  match (size64? ((l.height - 1) * l.stride)).bind fun n => size64? (n + row) with
  | some n => return n
  | none => throw (.format .bufferOverflow)

/-- Checks that a buffer of the given length can hold the image. -/
def validate (l : Layout) (length : Nat) : Except Fault Unit := do
  let row ← l.rowBytes
  if l.height > 1 ∧ l.stride < row then
    throw (.format (.narrowStride l.stride l.width l.format.name row))
  let needed ← l.requiredLength
  if length < needed then
    throw (.format (.tooShort length l.width l.height l.format.name l.stride needed))

/-- First byte of a pixel. -/
def offset (l : Layout) (row column : Nat) : Nat :=
  row * l.stride + column * l.format.bytesPerPixel

/-- A buffer of equal bytes. -/
def blank (length : Nat) (fill : UInt8) : ByteArray := ⟨Array.replicate length fill⟩

/-- The byte at a place of a buffer, zero behind its end. -/
def byteAt (data : ByteArray) (i : Nat) : UInt8 := if h : i < data.size then data[i] else 0

/-- Bytes of a buffer from `start` on. -/
def slice (data : ByteArray) (start count : Nat) : List UInt8 :=
  (List.range count).map fun i => byteAt data (start + i)

/-- Bytes of a pixel in a buffer, if the image has it. -/
def pixel? (l : Layout) (data : ByteArray) (x y : Nat) : Option (List UInt8) :=
  let start := l.offset y x
  if x < l.width ∧ y < l.height ∧ start + l.format.bytesPerPixel ≤ data.size then
    some (slice data start l.format.bytesPerPixel)
  else none

def decodeRow (l : Layout) (data : ByteArray) (row : Nat) : List (Rgba Float32) :=
  (List.range l.width).map fun column =>
    l.format.decode (slice data (l.offset row column) l.format.bytesPerPixel)

/-- Reads all pixels, row by row. The start of every row has to lie in the buffer, even of
    rows without pixels. -/
def decode (l : Layout) (data : ByteArray) : Except Fault (Array (Rgba Float32)) := do
  l.validate data.size
  if (l.height - 1) * l.stride > data.size then
    throw (.format (.outside data.size l.stride (l.height - 1)))
  if l.width = 0 then return #[]
  return ((List.range l.height).flatMap (l.decodeRow data)).toArray

/-- Writes a byte, unless the place is behind the end. -/
def putByte (data : ByteArray) (i : Nat) (b : UInt8) : ByteArray :=
  if h : i < data.size then data.set i b else data

/-- Writes bytes from `start` on. -/
def blit (data : ByteArray) (start : Nat) : List UInt8 → ByteArray
  | [] => data
  | b :: rest => blit (putByte data start b) (start + 1) rest

/-- Writes the texel of each index into its pixel. -/
def encodeFrom (l : Layout) (index : Nat) (data : ByteArray) : List (Rgba Float32) → ByteArray
  | [] => data
  | c :: rest =>
    let start := l.offset (index / l.width) (index % l.width)
    encodeFrom l (index + 1) (blit data start (l.format.encode c)) rest

/-- Writes all pixels and leaves the other bytes alone. -/
def encode (l : Layout) (texels : Array (Rgba Float32)) (data : ByteArray) :
    Except Fault ByteArray := do
  l.validate data.size
  if texels.size ≠ l.width * l.height then
    throw (.format (.texels (l.width * l.height) texels.size))
  return l.encodeFrom 0 data texels.toList

end Layout
end PixelKernel.Pixel
