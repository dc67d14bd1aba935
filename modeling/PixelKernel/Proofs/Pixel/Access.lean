import PixelKernel.Proofs.Pixel.Codec

/-! # Access to buffers

Reading and writing take the rows of an image out of a buffer one by one. A position that needs
more than 64 bits and a row that is not in the buffer would end them. For a layout that passes
its check there are no such positions, and all rows with pixels are in the buffer. What the
check says nothing about is where rows without pixels start.
-/

namespace PixelKernel.Pixel.Layout

/-! ## Row by row -/

/-- Why a row cannot be taken out of a buffer. -/
inductive Trespass where
  /-- A position needs more than 64 bits. -/
  | overflow
  /-- The row reaches behind the end of the buffer. -/
  | outside
  deriving Repr, DecidableEq

/-- `n` as a 64-bit size, if it is one. -/
def sized (n : Nat) : Except Trespass Nat :=
  match size64? n with
  | some n => .ok n
  | none => .error .overflow

/-- Where a row starts in a buffer that is long enough for it. -/
def rowStart (l : Layout) (length row : Nat) : Except Trespass Nat := do
  let bytes ← sized (l.width * l.format.bytesPerPixel)
  let start ← sized (row * l.stride)
  let stop ← sized (start + bytes)
  if length < stop then throw .outside
  return start

/-- Takes rows out of a buffer and cuts them into pixels. -/
def readRows (l : Layout) (data : ByteArray) (row : Nat) :
    Nat → Except Trespass (List (Rgba Float32))
  | 0 => return []
  | rows + 1 => do
    let start ← l.rowStart data.size row
    let line := (List.range l.width).map fun column =>
      l.format.decode (slice data (start + column * l.format.bytesPerPixel) l.format.bytesPerPixel)
    return line ++ (← l.readRows data (row + 1) rows)

/-- All rows of an image. -/
def readImage (l : Layout) (data : ByteArray) : Except Trespass (List (Rgba Float32)) := do
  let _ ← sized (l.width * l.height)
  l.readRows data 0 l.height

/-- Writes texels into pixels that follow each other. -/
def blitPixels (f : Format) (data : ByteArray) (start : Nat) : List (Rgba Float32) → ByteArray
  | [] => data
  | c :: rest => blitPixels f (blit data start (f.encode c)) (start + f.bytesPerPixel) rest

/-- Cuts texels into rows and writes these into the rows of a buffer. -/
def writeRows (l : Layout) (row : Nat) (data : ByteArray) (texels : List (Rgba Float32)) :
    Nat → Except Trespass ByteArray
  | 0 => return data
  | rows + 1 => do
    let start ← l.rowStart data.size row
    l.writeRows (row + 1) (blitPixels l.format data start (texels.take l.width))
      (texels.drop l.width) rows

/-- Writes as many rows as there are texels for, at most those of the image. -/
def writeImage (l : Layout) (texels : Array (Rgba Float32)) (data : ByteArray) :
    Except Trespass ByteArray := do
  let _ ← sized (l.width * l.height)
  l.writeRows 0 data texels.toList (min (texels.size / max l.width 1) l.height)

section

variable {l : Layout} {data : ByteArray} {length row n : Nat}

theorem sized_eq_ok (small : n < 2 ^ 64) : sized n = .ok n := by
  unfold sized size64?
  rw [if_pos small]

/-- Rows whose end is in the buffer can be taken out of it. -/
theorem rowStart_eq_ok (small : length < 2 ^ 64)
    (inside : row * l.stride + l.width * l.format.bytesPerPixel ≤ length) :
    l.rowStart length row = .ok (row * l.stride) := by
  unfold rowStart
  rw [sized_eq_ok (by omega), sized_eq_ok (by omega)]
  simp only [bind, Except.bind]
  rw [sized_eq_ok (by omega)]
  simp [Nat.not_lt.2 inside, pure, Except.pure]

/-- A row without pixels has to start in the buffer all the same. -/
theorem rowStart_eq_outside (none_ : l.width = 0) (small : row * l.stride < 2 ^ 64)
    (outside : length < row * l.stride) : l.rowStart length row = .error .outside := by
  unfold rowStart
  rw [none_, Nat.zero_mul, sized_eq_ok (by decide), sized_eq_ok small]
  simp only [bind, Except.bind, Nat.add_zero]
  rw [sized_eq_ok small]
  simp [outside, throw, throwThe, MonadExceptOf.throw]

/-! ## Reading -/

theorem readRows_eq_ok (small : data.size < 2 ^ 64) {rows : Nat}
    (inside : ∀ y < row + rows, row ≤ y →
      y * l.stride + l.width * l.format.bytesPerPixel ≤ data.size) :
    l.readRows data row rows = .ok ((List.range' row rows).flatMap (l.decodeRow data)) := by
  induction rows generalizing row with
  | zero => rfl
  | succ rows ih =>
      have later := @ih (row + 1) fun y below above => inside y (by omega) (by omega)
      unfold readRows
      rw [rowStart_eq_ok small (inside row (by omega) le_rfl)]
      simp only [bind, Except.bind, later]
      rfl

/-- Before a row would start at a position that needs more than 64 bits, one starts behind the
    end of the buffer. -/
theorem readRows_eq_outside (none_ : l.width = 0) (small : data.size < 2 ^ 63)
    (stride : l.stride < 2 ^ 64) (first : row * l.stride < 2 ^ 64) {rows : Nat} (some_ : 0 < rows)
    (outside : data.size < (row + rows - 1) * l.stride) :
    l.readRows data row rows = .error .outside := by
  induction rows generalizing row with
  | zero => cases some_
  | succ rows ih =>
      unfold readRows
      by_cases behind : data.size < row * l.stride
      · rw [rowStart_eq_outside none_ first behind]
        rfl
      · have more : 0 < rows :=
          Nat.pos_of_ne_zero fun last => behind (by simpa [last] using outside)
        have next : (row + 1) * l.stride < 2 ^ 64 := by
          rw [Nat.succ_mul]
          cases row with
          | zero => omega
          | succ row => rw [Nat.succ_mul] at behind ⊢; omega
        rw [rowStart_eq_ok (by omega) (by simpa [none_] using behind)]
        rw [show row + (rows + 1) - 1 = row + 1 + rows - 1 by omega] at outside
        simp only [bind, Except.bind, ih next more outside]

/-! ## Writing -/

/-- Pixels of a row follow each other. -/
theorem encodeFrom_row {column : Nat} {texels : List (Rgba Float32)}
    (room : column + texels.length ≤ l.width) :
    l.encodeFrom (row * l.width + column) data texels =
      blitPixels l.format data (l.offset row column) texels := by
  induction texels generalizing column data with
  | nil => rfl
  | cons c rest ih =>
      rw [List.length_cons] at room
      have next := @ih (blit data (l.offset row column) (l.format.encode c)) (column + 1) (by omega)
      rw [encodeFrom, Grid.place_div (by omega), Grid.place_mod (by omega), blitPixels,
        Nat.add_assoc,
        next]
      unfold offset
      rw [Nat.succ_mul, Nat.add_assoc]

theorem encodeFrom_append {index : Nat} {first second : List (Rgba Float32)} :
    l.encodeFrom index data (first ++ second) =
      l.encodeFrom (index + first.length) (l.encodeFrom index data first) second := by
  induction first generalizing index data with
  | nil => rfl
  | cons c rest ih =>
      rw [List.cons_append, encodeFrom, ih, encodeFrom, List.length_cons, Nat.add_right_comm]
      rfl

theorem writeRows_eq_ok (small : data.size < 2 ^ 64) {rows : Nat} {texels : List (Rgba Float32)}
    (enough : texels.length = rows * l.width)
    (inside : ∀ y < row + rows, row ≤ y →
      y * l.stride + l.width * l.format.bytesPerPixel ≤ data.size) :
    l.writeRows row data texels rows = .ok (l.encodeFrom (row * l.width) data texels) := by
  induction rows generalizing row data texels with
  | zero =>
      obtain rfl := List.eq_nil_of_length_eq_zero (enough.trans (Nat.zero_mul _))
      rfl
  | succ rows ih =>
      rw [Nat.succ_mul] at enough
      have line : (texels.take l.width).length = l.width := by
        rw [List.length_take]
        omega
      have here : blitPixels l.format data (row * l.stride) (texels.take l.width) =
          l.encodeFrom (row * l.width) data (texels.take l.width) := by
        have same := @encodeFrom_row l data row 0 (texels.take l.width) (by omega)
        rw [offset, Nat.zero_mul] at same
        exact same.symm
      unfold writeRows
      rw [rowStart_eq_ok small (inside row (by omega) le_rfl)]
      simp only [bind, Except.bind]
      rw [here, ih (by rwa [size_encodeFrom]) (by rw [List.length_drop]; omega)
        fun y below above => ?_]
      · conv_rhs => rw [← List.take_append_drop l.width texels, encodeFrom_append, line]
        rw [Nat.succ_mul]
      · rw [size_encodeFrom]
        exact inside y (by omega) (by omega)

end

/-! ## Checked buffers -/

/-- Some row without pixels starts behind the end of the buffer. -/
def Strays (l : Layout) (length : Nat) : Prop :=
  l.width = 0 ∧ length < (l.height - 1) * l.stride

/-- What it means for a buffer that an image can be read from it and written into it. -/
structure Accessible (l : Layout) (data : ByteArray) : Prop where
  /-- Bytes of pixels are in the buffer. -/
  inside : ∀ row < l.height, ∀ column < l.width, ∀ i, l.Covers row column i → i < data.size
  /-- Taking the rows out one by one gives all texels, -/
  read : ¬ l.Strays data.size → ∃ texels, l.readImage data = .ok texels.toList ∧
    l.decode data = .ok texels ∧ texels.size = l.width * l.height
  /-- except from a buffer that ends before the last row without pixels. -/
  stray : l.Strays data.size → l.readImage data = .error .outside ∧
    l.decode data = .error (.format (.outside data.size l.stride (l.height - 1)))
  /-- As many texels as there are pixels can be written, and no byte between the pixels changes. -/
  written : ∀ texels : Array (Rgba Float32), texels.size = l.width * l.height → ∃ out,
    l.writeImage texels data = .ok out ∧ l.encode texels data = .ok out ∧ out.size = data.size ∧
      ∀ i, (∀ row < l.height, ∀ column < l.width, ¬ l.Covers row column i) →
        byteAt out i = byteAt data i
  /-- Any other number is refused, and the buffer is as it was. -/
  refused : ∀ texels : Array (Rgba Float32), texels.size ≠ l.width * l.height →
    (l.write texels).run.run data =
      (.error (.format (.texels (l.width * l.height) texels.size)), data)

section

variable {l : Layout} {data : ByteArray}

/-- Where all rows end in the buffer. -/
theorem rows_inside (valid : l.validate data.size = .ok ()) (tame : ¬ l.Strays data.size)
    {row : Nat} (row_ : row < l.height) :
    row * l.stride + l.width * l.format.bytesPerPixel ≤ data.size := by
  obtain none_ | wide := Nat.eq_zero_or_pos l.width
  · have last := Nat.mul_le_mul_right l.stride (Nat.le_pred_of_lt row_)
    have : ¬ data.size < (l.height - 1) * l.stride := fun outside => tame ⟨none_, outside⟩
    rw [none_, Nat.zero_mul]
    change row * l.stride ≤ (l.height - 1) * l.stride at last
    omega
  · have last := (fits_of_validate valid).inside row row_ (l.width - 1) (by omega)
    have columns : (l.width - 1) * l.format.bytesPerPixel + l.format.bytesPerPixel =
        l.width * l.format.bytesPerPixel := by
      rw [← Nat.succ_mul, Nat.succ_eq_add_one, Nat.sub_add_cancel wide]
    unfold offset at last
    omega

theorem decode_eq_ok (valid : l.validate data.size = .ok ()) (tame : ¬ l.Strays data.size) :
    l.decode data = .ok (l.image data).texels := by
  obtain none_ | wide := Nat.eq_zero_or_pos l.width
  · have inside : ¬ data.size < (l.height - 1) * l.stride := fun outside => tame ⟨none_, outside⟩
    have empty : (l.image data).texels = #[] :=
      Array.eq_empty_of_size_eq_zero (by
        rw [(l.image data).full]
        simp [image, Grid.tabulate, none_])
    unfold decode
    rw [valid, empty]
    simp [bind, Except.bind, pure, Except.pure, none_, inside]
  · exact decode_eq wide valid

theorem decode_eq_outside (valid : l.validate data.size = .ok ()) (stray : l.Strays data.size) :
    l.decode data = .error (.format (.outside data.size l.stride (l.height - 1))) := by
  unfold decode
  rw [valid]
  simp [bind, Except.bind, stray.2, throw, throwThe, MonadExceptOf.throw]

theorem sized_pixels (width : l.width < 2 ^ 32) (height : l.height < 2 ^ 32) :
    sized (l.width * l.height) = .ok (l.width * l.height) :=
  sized_eq_ok (by
    calc l.width * l.height ≤ l.width * 2 ^ 32 := Nat.mul_le_mul_left _ height.le
      _ < 2 ^ 32 * 2 ^ 32 := Nat.mul_lt_mul_of_pos_right width (by decide))

theorem readImage_eq_ok (pixels : sized (l.width * l.height) = .ok (l.width * l.height))
    (small : data.size < 2 ^ 63) (valid : l.validate data.size = .ok ())
    (tame : ¬ l.Strays data.size) : l.readImage data = .ok (l.image data).texels.toList := by
  unfold readImage
  rw [pixels, toList_texels_image, List.range_eq_range']
  exact readRows_eq_ok (by omega) fun y below _ => rows_inside valid tame (by omega)

theorem readImage_eq_outside (pixels : sized (l.width * l.height) = .ok (l.width * l.height))
    (small : data.size < 2 ^ 63) (stride : l.stride < 2 ^ 64) (stray : l.Strays data.size) :
    l.readImage data = .error .outside := by
  have some_ : 0 < l.height := Nat.pos_of_ne_zero fun none_ => by
    have := stray.2
    simp [none_] at this
  unfold readImage
  rw [pixels]
  exact readRows_eq_outside stray.1 small stride (by omega) some_ (by simpa using stray.2)

theorem writeImage_eq_ok (pixels : sized (l.width * l.height) = .ok (l.width * l.height))
    (small : data.size < 2 ^ 63) (valid : l.validate data.size = .ok ())
    {texels : Array (Rgba Float32)} (size : texels.size = l.width * l.height) :
    l.writeImage texels data = .ok (l.encodeFrom 0 data texels.toList) := by
  unfold writeImage
  rw [pixels]
  change l.writeRows 0 data texels.toList (min (texels.size / max l.width 1) l.height) = _
  obtain none_ | wide := Nat.eq_zero_or_pos l.width
  · -- No texels: not even the rows without pixels are taken out.
    obtain rfl := Array.eq_empty_of_size_eq_zero (size.trans (by rw [none_, Nat.zero_mul]))
    simp [writeRows, pure, Except.pure, encodeFrom]
  · have all : min (texels.size / max l.width 1) l.height = l.height := by
      rw [max_eq_left (by omega), size, Nat.mul_div_cancel_left _ wide, min_self]
    have tame : ¬ l.Strays data.size := fun stray => wide.ne' stray.1
    have written := @writeRows_eq_ok l data 0 (by omega) l.height texels.toList
      (by rw [Array.length_toList, size, Nat.mul_comm])
      fun y below _ => rows_inside valid tame (by omega)
    rw [Nat.zero_mul] at written
    rw [all, written]

/-- What passes the check can be read and written, with one exception for reading. -/
theorem accessible_of_validate (width : l.width < 2 ^ 32) (height : l.height < 2 ^ 32)
    (stride : l.stride < 2 ^ 64) (small : data.size < 2 ^ 63)
    (valid : l.validate data.size = .ok ()) : l.Accessible data := by
  have pixels := sized_pixels width height
  constructor
  case inside =>
    intro row row_ column column_ i covers
    exact Nat.lt_of_lt_of_le covers.2 ((fits_of_validate valid).inside row row_ column column_)
  case read =>
    intro tame
    exact ⟨_, readImage_eq_ok pixels small valid tame, decode_eq_ok valid tame, (l.image data).full⟩
  case stray =>
    intro stray
    exact ⟨readImage_eq_outside pixels small stride stray, decode_eq_outside valid stray⟩
  case written =>
    intro texels size
    refine ⟨_, writeImage_eq_ok pixels small valid size, encode_eq_ok.2 ⟨valid, size, rfl⟩,
      size_encodeFrom, fun i outside => byteAt_encodeFrom_of_not fun j less => ?_⟩
    rw [Array.length_toList, size] at less
    rw [Nat.zero_add]
    obtain ⟨column, row⟩ := Grid.column_row less
    exact outside _ row _ column
  case refused =>
    intro texels size
    rw [run_write]
    unfold encode
    rw [valid]
    simp [bind, Except.bind, size, throw, throwThe, MonadExceptOf.throw]

/-- Two pixels with a byte between them; and two rows without pixels, the second of which would
    start behind the end of an empty buffer. -/
theorem twoRows_accessible :
    (∃ texels, decode ⟨1, 2, 5, .rgba32⟩ (blank 9 7) = .ok texels ∧ texels.size = 2) ∧
    (∃ out, encode ⟨1, 2, 5, .rgba32⟩ (.replicate 2 .transparent) (blank 9 7) = .ok out ∧
      byteAt out 4 = 7) ∧
    (∃ out, encode ⟨0, 2, 1, .rgba32⟩ #[] (blank 0 0) = .ok out) ∧
    decode ⟨0, 2, 1, .rgba32⟩ (blank 0 0) = .error (.format (.outside 0 1 1)) := by
  have pixels : Accessible ⟨1, 2, 5, .rgba32⟩ (blank 9 7) :=
    accessible_of_validate (by decide) (by decide) (by decide) (by decide) rfl
  have none_ : Accessible ⟨0, 2, 1, .rgba32⟩ (blank 0 0) :=
    accessible_of_validate (by decide) (by decide) (by decide) (by decide) rfl
  refine ⟨?_, ?_, ?_, (none_.stray ⟨rfl, by decide⟩).2⟩
  · obtain ⟨texels, -, read, size⟩ := pixels.read fun stray => absurd stray.1 (by decide)
    exact ⟨texels, read, size⟩
  · obtain ⟨out, -, encoded, -, rest⟩ := pixels.written (.replicate 2 .transparent) (by simp)
    refine ⟨out, encoded, rest 4 fun row row_ column column_ covers => ?_⟩
    have outside : ∀ row < 2, ∀ column < 1,
        ¬ (row * 5 + column * 4 ≤ 4 ∧ 4 < row * 5 + column * 4 + 4) := by decide
    exact outside row row_ column column_ covers
  · obtain ⟨out, -, encoded, -⟩ := none_.written #[] rfl
    exact ⟨out, encoded⟩

end

end PixelKernel.Pixel.Layout
