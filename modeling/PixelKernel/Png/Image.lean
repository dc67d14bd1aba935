import PixelKernel.Fault
import PixelKernel.Pixel.Layout
import PixelKernel.Png.Stored

/-! # Images in files

Pictures of eight bits a channel, without interlacing, row filters or compression. They
are read in grey or colour, with alpha or without, and written in colour with alpha.
-/

namespace PixelKernel.Png

/-- Straight colours in four bytes each, row by row. -/
structure Image where
  width : Nat
  height : Nat
  bytes : ByteArray

/-- Channels that a file holds. -/
inductive Channels where
  | grey | greyAlpha | colour | colourAlpha
  deriving Repr, DecidableEq

namespace Channels

def ofCode? : UInt8 → Option Channels
  | 0 => some grey
  | 2 => some colour
  | 4 => some greyAlpha
  | 6 => some colourAlpha
  | _ => none

def count : Channels → Nat
  | grey => 1
  | greyAlpha => 2
  | colour => 3
  | colourAlpha => 4

/-- Adds pixels as four bytes each; those without alpha are opaque. -/
def expand (done : ByteArray) : Channels → List UInt8 → ByteArray
  | grey, v :: rest => expand (pixel done v v v 255) grey rest
  | greyAlpha, v :: a :: rest => expand (pixel done v v v a) greyAlpha rest
  | colour, r :: g :: b :: rest => expand (pixel done r g b 255) colour rest
  | colourAlpha, r :: g :: b :: a :: rest => expand (pixel done r g b a) colourAlpha rest
  | _, _ => done
where
  pixel (done : ByteArray) (r g b a : UInt8) : ByteArray :=
    (((done.push r).push g).push b).push a

end Channels

def signature : List UInt8 := [0x89, 0x50, 0x4e, 0x47, 0x0d, 0x0a, 0x1a, 0x0a]

def tag (name : String) : List UInt8 := name.toList.map fun c => UInt8.ofNat c.toNat

/-- A piece of a file with its length and check sum. -/
def chunk (name : String) (body : List UInt8) : List UInt8 :=
  let guarded := tag name ++ body
  word (UInt32.ofNat body.length) ++ guarded ++ word (crc guarded)

/-- Rows, each behind a byte that says it is not filtered. -/
def rows (width : Nat) : Nat → List UInt8 → List UInt8
  | 0, _ => []
  | n + 1, bytes => 0 :: bytes.take (4 * width) ++ rows width n (bytes.drop (4 * width))

/-- The file of an image. One without pixels has none. -/
def encode (i : Image) : Except String (List UInt8) :=
  if i.width = 0 then .error "Zero width not allowed"
  else if i.height = 0 then .error "Zero height not allowed"
  else
    let head := word (UInt32.ofNat i.width) ++ word (UInt32.ofNat i.height) ++ [8, 6, 0, 0, 0]
    let pixels := rows i.width i.height i.bytes.data.toList
    .ok (signature ++ chunk "IHDR" head ++ chunk "IDAT" (Stored.encode pixels) ++ chunk "IEND" [])

/-- The next chunk, if it is whole, and what follows it. -/
def takeChunk (bytes : List UInt8) :
    Except ReadFault (List UInt8 × List UInt8 × { rest : List UInt8 // rest.length < bytes.length }) :=
  match bytes with
  | a :: b :: c :: d :: rest =>
    let n := (ofWord a b c d).toNat
    let guarded := rest.take (4 + n)
    match h : rest.drop (4 + n) with
    | e :: f :: g :: k :: rest' =>
      if ofWord e f g k = crc guarded then
        .ok (guarded.take 4, guarded.drop 4, ⟨rest', by
          have := congrArg List.length h
          simp at this ⊢
          omega⟩)
      else .error .damaged
    | _ => .error .ended
  | _ => .error .ended

/-- The name of the next chunk, as far as there is one. -/
def chunkName (bytes : List UInt8) : List UInt8 := (bytes.drop 4).take 4

/-- Image data of chunks in a row. What follows is another chunk, of which the name is
    enough. -/
def imageRun (bytes : List UInt8) : Except ReadFault (List UInt8) :=
  if (chunkName bytes).length < 4 then .error .ended
  else if chunkName bytes ≠ tag "IDAT" then .ok []
  else
    match takeChunk bytes with
    | .error f => .error f
    | .ok (_, body, ⟨rest, _h⟩) => do return body ++ (← imageRun rest)
termination_by bytes.length

/-- Image data behind other chunks. -/
def imageData (bytes : List UInt8) : Except ReadFault (List UInt8) :=
  if chunkName bytes = tag "IDAT" then imageRun bytes
  else
    match takeChunk bytes with
    | .error f => .error f
    | .ok (name, _, ⟨rest, _h⟩) =>
      if name = tag "IEND" then .error .damaged else imageData rest
termination_by bytes.length

/-- Rows without the bytes before them. -/
def unfiltered (rowBytes : Nat) : Nat → List UInt8 → Except ReadFault (List UInt8)
  | 0, _ => .ok []
  | n + 1, bytes =>
    match bytes with
    | [] => .error .ended
    | f :: rest =>
      if f ≠ 0 then .error .damaged
      else if rest.length < rowBytes then .error .ended
      else do return rest.take rowBytes ++ (← unfiltered rowBytes n (rest.drop rowBytes))

def decodeBody (bytes : List UInt8) : Except ReadFault Image := do
  let (name, head, ⟨rest, _⟩) ← takeChunk bytes
  if name ≠ tag "IHDR" then throw .damaged
  match head with
  | [w0, w1, w2, w3, h0, h1, h2, h3, 8, code, 0, 0, 0] =>
    match Channels.ofCode? code with
    | none => throw .damaged
    | some channels =>
      let width := (ofWord w0 w1 w2 w3).toNat
      let height := (ofWord h0 h1 h2 h3).toNat
      if width = 0 ∨ height = 0 then throw .damaged
      let data ← Stored.decode (← imageData rest)
      let pixels ← unfiltered (width * channels.count) height data
      return ⟨width, height, channels.expand .empty pixels⟩
  | _ => throw .damaged

/-- Why there is no image in a file. -/
def undecodable (cause : String) : Fault := .other "decode image from memory" [cause]

/-- The image that a file holds. -/
def decode (bytes : List UInt8) : Except Fault Image :=
  if bytes.take 8 ≠ signature then
    .error (undecodable "The image format could not be determined")
  else
    match decodeBody (bytes.drop 8) with
    | .ok i => .ok i
    | .error .ended => .error (undecodable "unexpected end of file")
    | .error .damaged => .error (undecodable "Format error decoding Png")

end PixelKernel.Png
