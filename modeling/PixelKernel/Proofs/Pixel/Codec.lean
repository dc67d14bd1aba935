import PixelKernel.Proofs.Pixel.Channels
import PixelKernel.Proofs.Pixel.Writing

/-! # Reading pixels and writing them again

An image that is read from a buffer and written into another one with the same layout has the
bytes that it had, but for what no texel can tell: bytes of `x` channels, colours without alpha,
and the different words for NaN.
-/

namespace PixelKernel.Pixel

open Float.Model Float.Model.UnpackedFloat Rounding

/-! ## Bytes that are written -/

/-- The bytes of floats with one word for all that is not a number. -/
def settledFloats : List UInt8 → List UInt8
  | b0 :: b1 :: b2 :: b3 :: rest =>
    (if 255 * 2 ^ 23 < (wordOfBytes b0 b1 b2 b3).toNat % 2 ^ 31 then [0x00, 0x00, 0xc0, 0x7f]
      else [b0, b1, b2, b3]) ++ settledFloats rest
  | rest => rest

/-- The bytes that a pixel has once it was read and written. -/
def Format.settled (f : Format) (bytes : List UInt8) : List UInt8 :=
  if f.isFloat then settledFloats bytes
  else if f.isPremultiplied = false ∧ (.a, 0) ∈ f.channels.zip bytes then bytes.map fun _ => 0
  else List.zipWith (fun channel byte => if channel = .x then 0xff else byte) f.channels bytes

/-! ## Floats -/

theorem or_two_pow_mul {a b i : Nat} (below : b < 2 ^ i) : b ||| 2 ^ i * a = b + 2 ^ i * a := by
  rw [Nat.or_comm, ← Nat.two_pow_add_eq_or_of_lt below, Nat.add_comm]

theorem toNat_wordOfBytes (b0 b1 b2 b3 : UInt8) : (wordOfBytes b0 b1 b2 b3).toNat =
    b0.toNat + 2 ^ 8 * b1.toNat + 2 ^ 16 * b2.toNat + 2 ^ 24 * b3.toNat := by
  have h0 := b0.toNat_lt
  have h1 := b1.toNat_lt
  have h2 := b2.toNat_lt
  have shifted (b : UInt8) (i : Nat) (small : i ≤ 24) : b.toNat <<< i % 2 ^ 32 = 2 ^ i * b.toNat := by
    have := b.toNat_lt
    have : 2 ^ i ≤ 2 ^ 24 := Nat.pow_le_pow_right (by decide) small
    rw [Nat.shiftLeft_eq, Nat.mul_comm, Nat.mod_eq_of_lt (by nlinarith)]
  unfold wordOfBytes
  simp only [UInt32.toNat_or, UInt32.toNat_shiftLeft, UInt8.toNat_toUInt32]
  change ((b0.toNat ||| b1.toNat <<< 8 % 2 ^ 32) ||| b2.toNat <<< 16 % 2 ^ 32) |||
    b3.toNat <<< 24 % 2 ^ 32 = _
  rw [shifted _ _ (by decide), shifted _ _ (by decide), shifted _ _ (by decide), or_two_pow_mul h0,
    or_two_pow_mul (i := 16) (b := b0.toNat + 2 ^ 8 * b1.toNat) (by omega),
    or_two_pow_mul (i := 24) (by omega)]

/-- A word holds the bytes that it was put together from. -/
theorem bytesOfWord_wordOfBytes (b0 b1 b2 b3 : UInt8) :
    bytesOfWord (wordOfBytes b0 b1 b2 b3) = [b0, b1, b2, b3] := by
  have word := toNat_wordOfBytes b0 b1 b2 b3
  have h0 := b0.toNat_lt
  have h1 := b1.toNat_lt
  have h2 := b2.toNat_lt
  have h3 := b3.toNat_lt
  have part (i : UInt32) : (wordOfBytes b0 b1 b2 b3 >>> i).toUInt8.toNat =
      (wordOfBytes b0 b1 b2 b3).toNat / 2 ^ (i.toNat % 32) % 2 ^ 8 := by
    rw [UInt32.toNat_toUInt8, UInt32.toNat_shiftRight, Nat.shiftRight_eq_div_pow]
  unfold bytesOfWord
  simp only [List.cons.injEq, and_true, ← UInt8.toNat_inj, part, UInt32.toNat_toUInt8, word]
  refine ⟨by omega, ?_, ?_, ?_⟩
  · change _ / 2 ^ 8 % _ = _
    omega
  · change _ / 2 ^ 16 % _ = _
    omega
  · change _ / 2 ^ 24 % _ = _
    omega

/-- A word that is taken for a float stays as it is, unless it is one of those for NaN. -/
theorem toBits_ofBits (w : UInt32) : (Float32.ofBits w).toBits =
    if 255 * 2 ^ 23 < w.toNat % 2 ^ 31 then 0x7fc00000 else w := by
  have nan : @isNaNBits .binary32 w.toBitVec = true ↔ 255 * 2 ^ 23 < w.toNat % 2 ^ 31 := by
    have mantissa := Unsigned.toNat_unpackMantissa w
    have exponent := Unsigned.toNat_unpackExponent w
    simp only [isNaNBits, decide_eq_true_eq, ← BitVec.toNat_inj, ne_eq, mantissa, exponent]
    change w.toNat / 2 ^ 23 % 2 ^ 8 = 255 ∧ ¬ w.toNat % 2 ^ 23 = 0 ↔ _
    omega
  change UInt32.ofBitVec (UnpackedFloat.pack .binary32 (UnpackedFloat.unpack .binary32 w.toBitVec)) = _
  rw [pack_unpack]
  by_cases h : @isNaNBits .binary32 w.toBitVec = true
  · rw [if_pos h, if_pos (nan.1 h)]
    rfl
  · rw [if_neg h, if_neg (fun big => h (nan.2 big))]

theorem bytesOfWord_toBits (b0 b1 b2 b3 : UInt8) :
    bytesOfWord (Float32.ofBits (wordOfBytes b0 b1 b2 b3)).toBits =
      settledFloats [b0, b1, b2, b3] := by
  rw [toBits_ofBits]
  unfold settledFloats
  split
  · rfl
  · rw [bytesOfWord_wordOfBytes]
    rfl

/-! ## Colours -/

/-- Colours that are multiplied by alpha and divided by it again are written as they were. -/
theorem byte_unpremultiply_premultiply {k r : Nat} {v : ℚ} {α : Float32} (near : Near r k α v)
    (pos : 0 < v) (room : r ≤ 18) (few : k ≤ 3) (red green blue : UInt8) (channel : Channel) :
    let c : Rgba Float32 := ⟨unitOfByte red, unitOfByte green, unitOfByte blue, α⟩
    channel.byte c.premultiply.unpremultiply = channel.byte c := by
  have some_ : Scalar.atMost α (Scalar.zero : Float32) = false := near.not_atMost_zero
  intro c
  unfold Rgba.unpremultiply
  rw [show c.premultiply.a = α from rfl, some_, if_neg Bool.false_ne_true]
  have cancels (b : UInt8) : byteOfUnit (unitOfByte b * α * (Scalar.one / α)) =
      byteOfUnit (unitOfByte b) := by
    rw [byteOfUnit_unitOfByte]
    exact byteOfUnit_mul_reciprocal b near pos room few
  cases channel with
  | r => exact cancels red
  | g => exact cancels green
  | b => exact cancels blue
  | a | x => rfl

/-- Without alpha no colour is left. -/
theorem unpremultiply_of_zero {c : Rgba Float32} (none_ : c.a = 0) :
    c.premultiply.unpremultiply = .transparent := by
  have : Scalar.atMost c.premultiply.a (Scalar.zero : Float32) = true := by
    rw [show c.premultiply.a = c.a from rfl, none_]
    rfl
  unfold Rgba.unpremultiply
  rw [this, if_pos rfl]

/-- How a colour with its own alpha is written. -/
theorem byte_straight (alpha red green blue : UInt8) {channel : Channel} (coloured : channel ≠ .x) :
    let c : Rgba Float32 := ⟨unitOfByte red, unitOfByte green, unitOfByte blue, unitOfByte alpha⟩
    channel.byte c.premultiply.unpremultiply = if alpha = 0 then 0 else channel.byte c := by
  intro c
  split
  next none_ =>
    rw [unpremultiply_of_zero (show unitOfByte alpha = 0 by rw [none_, unitOfByte_zero])]
    cases channel with
    | x => exact absurd rfl coloured
    | r | g | b | a => exact byteOfUnit_zero
  next some_ =>
    exact byte_unpremultiply_premultiply (near_unitOfByte some_)
      (div_pos (toNat_pos some_) (by norm_num)) (by decide) (by decide) ..

/-! ## Pixels -/

/-- The bytes of a colour whose channels were read from bytes. -/
theorem byte_units (red green blue : UInt8) (α : Float32) :
    let c : Rgba Float32 := ⟨unitOfByte red, unitOfByte green, unitOfByte blue, α⟩
    Channel.r.byte c = red ∧ Channel.g.byte c = green ∧ Channel.b.byte c = blue ∧
      Channel.a.byte c = byteOfUnit α ∧ Channel.x.byte c = 0xff := by
  simp [Channel.byte]

theorem eq_four_append {bytes : List UInt8} {n : Nat} (length : bytes.length = n + 4) :
    ∃ b0 b1 b2 b3 rest, bytes = b0 :: b1 :: b2 :: b3 :: rest ∧ rest.length = n := by
  match bytes, length with
  | b0 :: b1 :: b2 :: b3 :: rest, length =>
      exact ⟨b0, b1, b2, b3, rest, rfl, by simpa using length⟩

theorem encode_decode_floats {bytes : List UInt8} (length : bytes.length = 16) :
    Format.rgbaF32Premultiplied.encode (Format.rgbaF32Premultiplied.decode bytes) =
      settledFloats bytes := by
  obtain ⟨b0, b1, b2, b3, later, rfl, twelve⟩ := eq_four_append (n := 12) length
  obtain ⟨b4, b5, b6, b7, later, rfl, eight⟩ := eq_four_append (n := 8) twelve
  obtain ⟨b8, b9, b10, b11, later, rfl, four⟩ := eq_four_append (n := 4) eight
  obtain ⟨b12, b13, b14, b15, later, rfl, zero⟩ := eq_four_append (n := 0) four
  obtain rfl := List.eq_nil_of_length_eq_zero zero
  change bytesOfWord (Float32.ofBits (wordOfBytes b0 b1 b2 b3)).toBits ++
    (bytesOfWord (Float32.ofBits (wordOfBytes b4 b5 b6 b7)).toBits ++
    (bytesOfWord (Float32.ofBits (wordOfBytes b8 b9 b10 b11)).toBits ++
    (bytesOfWord (Float32.ofBits (wordOfBytes b12 b13 b14 b15)).toBits ++ []))) = _
  simp only [bytesOfWord_toBits, settledFloats, List.append_nil]

/-- A pixel that is read and written settles down. -/
theorem Format.encode_decode (f : Format) {bytes : List UInt8}
    (length : bytes.length = f.bytesPerPixel) : f.encode (f.decode bytes) = f.settled bytes := by
  have opaque_ (red green blue : UInt8) (channel : Channel) :=
    byte_unpremultiply_premultiply near_one one_pos (by decide) (by decide) red green blue channel
  cases f with
  | rgbaF32Premultiplied => exact encode_decode_floats length
  | rgb24 | bgr24 =>
      obtain ⟨b0, b1, b2, rfl⟩ := List.length_eq_three.1 length
      simp [encode, decode, settled, isFloat, isPremultiplied, channels, Channel.put, opaque_, byte_units]
  | rgbx32 | xbgr32 | xrgb32 | bgrx32 =>
      obtain ⟨b0, b1, b2, b3, rfl⟩ := List.length_eq_four.1 length
      simp [encode, decode, settled, isFloat, isPremultiplied, channels, Channel.put, opaque_, byte_units]
  | argb32Premultiplied | rgba32Premultiplied | abgr32Premultiplied | bgra32Premultiplied =>
      obtain ⟨b0, b1, b2, b3, rfl⟩ := List.length_eq_four.1 length
      simp [encode, decode, settled, isFloat, isPremultiplied, channels, Channel.put, byte_units]
  | argb32 | abgr32 =>
      obtain ⟨alpha, b1, b2, b3, rfl⟩ := List.length_eq_four.1 length
      by_cases none_ : alpha = 0
      all_goals simp [encode, decode, settled, isFloat, isPremultiplied, channels, Channel.put,
        byte_straight, byte_units, none_, eq_comm]
  | rgba32 | bgra32 =>
      obtain ⟨b0, b1, b2, alpha, rfl⟩ := List.length_eq_four.1 length
      by_cases none_ : alpha = 0
      all_goals simp [encode, decode, settled, isFloat, isPremultiplied, channels, Channel.put,
        byte_straight, byte_units, none_, eq_comm]

/-! ## Buffers -/

namespace Layout

/-- Columns in rows are places one after the other. -/
theorem flatMap_range {α : Type} (width height : Nat) (f : Nat → Nat → α) :
    (List.range height).flatMap (fun y => (List.range width).map fun x => f x y) =
      (List.range (width * height)).map fun i => f (i % width) (i / width) := by
  induction height with
  | zero => rfl
  | succ height ih =>
      rw [List.range_succ, List.flatMap_append, ih, Nat.mul_succ, List.range_add, List.map_append,
        List.flatMap_singleton, List.map_map]
      congr 1
      refine List.map_congr_left fun x there => ?_
      have column := List.mem_range.1 there
      rw [Function.comp_apply, Nat.mul_comm, Grid.place_mod column, Grid.place_div column]

/-- The image that a buffer holds. -/
def image (l : Layout) (data : ByteArray) : Grid Float32 :=
  .tabulate l.width l.height fun x y =>
    l.format.decode (slice data (l.offset y x) l.format.bytesPerPixel)

theorem toList_texels_image {l : Layout} {data : ByteArray} : (l.image data).texels.toList =
    (List.range l.height).flatMap (l.decodeRow data) := by
  unfold decodeRow image Grid.tabulate
  rw [flatMap_range l.width l.height fun x y =>
    l.format.decode (slice data (l.offset y x) l.format.bytesPerPixel), Array.toList_ofFn]
  refine List.ext_getElem (by simp) fun i _ _ => ?_
  rw [List.getElem_ofFn, List.getElem_map, List.getElem_range]

/-- A buffer that holds all pixels is read. -/
theorem decode_eq {l : Layout} {data : ByteArray} (wide : 0 < l.width) (valid : l.validate data.size = .ok ()) :
    l.decode data = .ok (l.image data).texels := by
  have inside : (l.height - 1) * l.stride ≤ data.size := by
    by_cases rows : l.height = 0
    · simp [rows]
    · have last := (fits_of_validate valid).inside (l.height - 1) (by omega) 0 wide
      unfold offset at last
      omega
  unfold decode
  rw [valid, ← toList_texels_image]
  simp [bind, Except.bind, pure, Except.pure, Nat.not_lt.2 inside, wide.ne']

/-- What comes of writing what was read from one buffer into another. -/
structure Settles (l : Layout) (data out result : ByteArray) : Prop where
  size : result.size = out.size
  /-- Every pixel lies in both buffers, and has the bytes that it had in the first, settled, -/
  pixels : ∀ column < l.width, ∀ row < l.height,
    l.offset row column + l.format.bytesPerPixel ≤ data.size ∧
    l.offset row column + l.format.bytesPerPixel ≤ result.size ∧
    slice result (l.offset row column) l.format.bytesPerPixel =
      l.format.settled (slice data (l.offset row column) l.format.bytesPerPixel)
  /-- and all other bytes are those of the second. -/
  rest : ∀ i, (∀ column < l.width, ∀ row < l.height, ¬ l.Covers row column i) →
    byteAt result i = byteAt out i

/-- Whatever passes the check is read, and what is read is written. -/
theorem settles_of_validate (l : Layout) (data out : ByteArray) (wide : 0 < l.width)
    (valid : l.validate data.size = .ok ()) (valid' : l.validate out.size = .ok ()) :
    ∃ texels result, l.decode data = .ok texels ∧ l.encode texels out = .ok result ∧
      l.Settles data out result := by
  have read := decode_eq wide valid
  have encoded := encode_eq_ok.2 ⟨valid', (l.image data).full, rfl⟩
  have written := written_encode (l := l) (g := l.image data) rfl rfl encoded
  refine ⟨_, _, read, encoded, written.size, fun column column_ row row_ => ?_, written.rest⟩
  obtain ⟨inside, held⟩ := written.pixels column column_ row row_
  refine ⟨(fits_of_validate valid).inside row row_ column column_, inside, ?_⟩
  rw [held, image, Grid.texel_tabulate column_ row_]
  exact Format.encode_decode _ (by simp [slice])

/-- Two pixels, one below the other, with a byte between them. -/
theorem settles_two_rows : ∃ texels result,
    decode ⟨1, 2, 5, .rgba32⟩ ⟨#[10, 20, 30, 0, 99, 1, 2, 3, 128]⟩ = .ok texels ∧
    encode ⟨1, 2, 5, .rgba32⟩ texels (blank 9 7) = .ok result ∧
    slice result 0 9 = [0, 0, 0, 0, 7, 1, 2, 3, 128] := by
  obtain ⟨texels, result, read, written, settles⟩ := settles_of_validate ⟨1, 2, 5, .rgba32⟩
    ⟨#[10, 20, 30, 0, 99, 1, 2, 3, 128]⟩ (blank 9 7) (by decide) rfl rfl
  refine ⟨texels, result, read, written, ?_⟩
  have first : slice result 0 4 = [0, 0, 0, 0] := (settles.pixels 0 (by decide) 0 (by decide)).2.2
  have second : slice result 5 4 = [1, 2, 3, 128] := (settles.pixels 0 (by decide) 1 (by decide)).2.2
  have between : byteAt result 4 = 7 := settles.rest 4 fun column column_ row row_ covers => by
    have outside : ∀ row < 2, ∀ column < 1, ¬ (row * 5 + column * 4 ≤ 4 ∧ 4 < row * 5 + column * 4 + 4) := by
      decide
    exact outside row row_ column column_ covers
  change slice result 0 4 ++ byteAt result 4 :: slice result 5 4 = _
  rw [first, between, second]
  rfl

end Layout
end PixelKernel.Pixel
