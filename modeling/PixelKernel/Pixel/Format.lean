import PixelKernel.Colour
import PixelKernel.Text.Space

/-! # Packed pixel formats

A format lists its channels in byte order. Bytes of an `x` channel are ignored on reading
and full on writing. Straight formats hold colour not multiplied by alpha; in memory all
colours are premultiplied.
-/

namespace PixelKernel.Pixel

inductive Format where
  | rgb24 | bgr24
  | rgbx32 | xbgr32 | xrgb32 | bgrx32
  | argb32 | argb32Premultiplied
  | rgba32 | rgba32Premultiplied
  | abgr32 | abgr32Premultiplied
  | bgra32 | bgra32Premultiplied
  /-- Four little-endian floats. -/
  | rgbaF32Premultiplied
  deriving Repr, DecidableEq

inductive Channel where
  | r | g | b | a | x
  deriving Repr, DecidableEq

namespace Format

def all : List Format :=
  [rgb24, bgr24, rgbx32, xbgr32, xrgb32, bgrx32, argb32, argb32Premultiplied, rgba32,
    rgba32Premultiplied, abgr32, abgr32Premultiplied, bgra32, bgra32Premultiplied,
    rgbaF32Premultiplied]

def name : Format → String
  | rgb24 => "RGB24"
  | bgr24 => "BGR24"
  | rgbx32 => "RGBX32"
  | xbgr32 => "XBGR32"
  | xrgb32 => "XRGB32"
  | bgrx32 => "BGRX32"
  | argb32 => "ARGB32"
  | argb32Premultiplied => "ARGB32_PREMULTIPLIED"
  | rgba32 => "RGBA32"
  | rgba32Premultiplied => "RGBA32_PREMULTIPLIED"
  | abgr32 => "ABGR32"
  | abgr32Premultiplied => "ABGR32_PREMULTIPLIED"
  | bgra32 => "BGRA32"
  | bgra32Premultiplied => "BGRA32_PREMULTIPLIED"
  | rgbaF32Premultiplied => "RGBA_F32_PREMULTIPLIED"

/-- The format with exactly this name. -/
def ofName? (name : String) : Option Format := all.find? (·.name == name)

/-- The format a text names, whatever the case of its letters and the space around it. -/
def parse? (text : String) : Option Format :=
  let wanted := (Text.trim text.toList).map Char.toUpper
  all.find? fun f => f.name.toList = wanted

def channels : Format → List Channel
  | rgb24 => [.r, .g, .b]
  | bgr24 => [.b, .g, .r]
  | rgbx32 => [.r, .g, .b, .x]
  | xbgr32 => [.x, .b, .g, .r]
  | xrgb32 => [.x, .r, .g, .b]
  | bgrx32 => [.b, .g, .r, .x]
  | argb32 | argb32Premultiplied => [.a, .r, .g, .b]
  | rgba32 | rgba32Premultiplied | rgbaF32Premultiplied => [.r, .g, .b, .a]
  | abgr32 | abgr32Premultiplied => [.a, .b, .g, .r]
  | bgra32 | bgra32Premultiplied => [.b, .g, .r, .a]

def isFloat : Format → Bool
  | rgbaF32Premultiplied => true
  | _ => false

def bytesPerPixel : Format → Nat
  | rgb24 | bgr24 => 3
  | rgbaF32Premultiplied => 16
  | _ => 4

def isPremultiplied : Format → Bool
  | argb32Premultiplied | rgba32Premultiplied | abgr32Premultiplied | bgra32Premultiplied
  | rgbaF32Premultiplied => true
  | _ => false

def hasAlpha (f : Format) : Bool := f.channels.contains .a

end Format

/-- Sets a channel of a colour. -/
def Channel.put (c : Rgba Float32) (v : Float32) : Channel → Rgba Float32
  | r => { c with r := v }
  | g => { c with g := v }
  | b => { c with b := v }
  | a => { c with a := v }
  | x => c

/-- The byte written for a channel. -/
def Channel.byte (c : Rgba Float32) : Channel → UInt8
  | r => byteOfUnit c.r
  | g => byteOfUnit c.g
  | b => byteOfUnit c.b
  | a => byteOfUnit c.a
  | x => 0xff

def wordOfBytes (b0 b1 b2 b3 : UInt8) : UInt32 :=
  b0.toUInt32 ||| b1.toUInt32 <<< 8 ||| b2.toUInt32 <<< 16 ||| b3.toUInt32 <<< 24

def bytesOfWord (w : UInt32) : List UInt8 :=
  [w.toUInt8, (w >>> 8).toUInt8, (w >>> 16).toUInt8, (w >>> 24).toUInt8]

/-- The word that starts at a place, zero unless all of its bytes are there. -/
def wordAt (bytes : List UInt8) (i : Nat) : UInt32 :=
  match bytes.drop i with
  | b0 :: b1 :: b2 :: b3 :: _ => wordOfBytes b0 b1 b2 b3
  | _ => 0

/-- Four floats, one after the other. -/
def floatsOfBytes (bytes : List UInt8) : Rgba Float32 :=
  let part i := Float32.ofBits (wordAt bytes i)
  ⟨part 0, part 4, part 8, part 12⟩

namespace Format

/-- Reads the bytes of one pixel. Without an alpha channel it is opaque. -/
def decode (f : Format) (bytes : List UInt8) : Rgba Float32 :=
  if f.isFloat then floatsOfBytes bytes
  else
    let c := (f.channels.zip bytes).foldl
      (fun c (channel, byte) => channel.put c (unitOfByte byte)) ⟨0, 0, 0, 1⟩
    if f.isPremultiplied then c else c.premultiply

/-- The bytes of one pixel. -/
def encode (f : Format) (c : Rgba Float32) : List UInt8 :=
  if f.isFloat then [c.r, c.g, c.b, c.a].flatMap fun v => bytesOfWord v.toBits
  else
    let c := if f.isPremultiplied then c else c.unpremultiply
    f.channels.map (·.byte c)

end Format
end PixelKernel.Pixel
