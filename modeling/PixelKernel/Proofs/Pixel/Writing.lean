import Mathlib.Tactic.Ring
import PixelKernel.Pixel.Layout
import PixelKernel.Proofs.Pixel.Grids

/-! # Writing pixels

A layout that passes its check puts the pixels of an image into ranges of bytes that lie in the
buffer and have nothing in common. Writing changes the bytes of these ranges and no others, so
each pixel holds in the end what was written into it.
-/

namespace PixelKernel.Pixel

/-! ## Formats -/

theorem length_bytesOfWord (w : UInt32) : (bytesOfWord w).length = 4 := rfl

/-- A pixel has as many bytes as its format says. -/
theorem Format.length_encode (f : Format) (c : Rgba Float32) :
    (f.encode c).length = f.bytesPerPixel := by
  unfold encode
  cases f <;> simp [isFloat, channels, bytesPerPixel, length_bytesOfWord]

theorem Format.bytesPerPixel_pos (f : Format) : 0 < f.bytesPerPixel := by
  cases f <;> decide

namespace Layout

/-! ## Bytes of buffers -/

section

variable {data out : ByteArray} {i start count : Nat} {b : UInt8} {bytes : List UInt8}

theorem byteAt_eq : byteAt data i = (data.data[i]?).getD 0 := by
  unfold byteAt
  split
  next inside => rw [ByteArray.getElem_eq_getElem_data, Array.getElem?_eq_getElem inside]; rfl
  next outside => rw [Array.getElem?_eq_none (Nat.not_lt.1 outside)]; rfl

theorem data_putByte : (putByte data i b).data = data.data.setIfInBounds i b := by
  unfold putByte
  split
  next inside => exact ByteArray.data_set.trans (dif_pos inside).symm
  next outside =>
    rw [Array.setIfInBounds, dif_neg (show ¬ i < data.data.size from outside)]

@[simp] theorem size_putByte : (putByte data i b).size = data.size := by
  rw [← ByteArray.size_data, data_putByte, Array.size_setIfInBounds, ByteArray.size_data]

@[simp] theorem size_blit : (blit data start bytes).size = data.size := by
  induction bytes generalizing data start with
  | nil => rfl
  | cons b rest ih => rw [blit, ih, size_putByte]

/-- Bytes before and behind those that are written stay. -/
theorem byteAt_blit_of_not (outside : i < start ∨ start + bytes.length ≤ i) :
    byteAt (blit data start bytes) i = byteAt data i := by
  induction bytes generalizing data start with
  | nil => rfl
  | cons b rest ih =>
      rw [List.length_cons] at outside
      rw [blit, ih (by omega), byteAt_eq, data_putByte,
        Array.getElem?_setIfInBounds_ne (by omega), byteAt_eq]

theorem byteAt_blit (inside : start + bytes.length ≤ data.size) (there : i < bytes.length) :
    byteAt (blit data start bytes) (start + i) = bytes[i] := by
  induction bytes generalizing data start i with
  | nil => cases there
  | cons b rest ih =>
      rw [List.length_cons] at inside there
      cases i with
      | zero =>
          rw [blit, byteAt_blit_of_not (by omega), byteAt_eq, data_putByte, Nat.add_zero,
            Array.getElem?_setIfInBounds_self_of_lt (by rw [ByteArray.size_data]; omega)]
          rfl
      | succ i =>
          rw [blit, ← Nat.add_assoc, Nat.add_right_comm,
            ih (by rw [size_putByte]; omega) (Nat.lt_of_succ_lt_succ there)]
          rfl

theorem slice_congr (same : ∀ i, start ≤ i → i < start + count → byteAt out i = byteAt data i) :
    slice out start count = slice data start count := by
  refine List.map_congr_left fun i below => same _ (Nat.le_add_right _ _) ?_
  have := List.mem_range.1 below
  omega

/-- What is written is read again. -/
theorem slice_blit (inside : start + bytes.length ≤ data.size) :
    slice (blit data start bytes) start bytes.length = bytes := by
  refine List.ext_getElem (by simp [slice]) fun i _ there => ?_
  simp only [slice, List.getElem_map, List.getElem_range]
  exact byteAt_blit inside there

end

/-! ## Ranges of pixels -/

section

variable {l : Layout} {length row column row' column' i : Nat}

/-- The byte is one of the pixel's. -/
def Covers (l : Layout) (row column i : Nat) : Prop :=
  l.offset row column ≤ i ∧ i < l.offset row column + l.format.bytesPerPixel

/-- Rows do not overlap, and all pixels lie in the buffer. -/
structure Fits (l : Layout) (length : Nat) : Prop where
  rows : l.height ≤ 1 ∨ l.width * l.format.bytesPerPixel ≤ l.stride
  inside : ∀ row < l.height, ∀ column < l.width,
    l.offset row column + l.format.bytesPerPixel ≤ length

theorem rowBytes_eq_ok {n : Nat} (h : l.rowBytes = .ok n) : n = l.width * l.format.bytesPerPixel := by
  unfold rowBytes size64? at h
  split at h
  next found =>
    cases h
    split at found <;> cases found
    rfl
  next => cases h

/-- The last row ends where the buffer has to reach. -/
theorem offset_le (row_ : row < l.height) (column_ : column < l.width) :
    l.offset row column + l.format.bytesPerPixel ≤
      (l.height - 1) * l.stride + l.width * l.format.bytesPerPixel := by
  have rows : row * l.stride ≤ (l.height - 1) * l.stride := Nat.mul_le_mul_right _ (by omega)
  have columns : (column + 1) * l.format.bytesPerPixel ≤ l.width * l.format.bytesPerPixel :=
    Nat.mul_le_mul_right _ column_
  rw [Nat.succ_mul] at columns
  unfold offset
  omega

theorem requiredLength_eq_ok {needed : Nat} (h : l.requiredLength = .ok needed)
    (rows : 0 < l.height) (columns : 0 < l.width) :
    needed = (l.height - 1) * l.stride + l.width * l.format.bytesPerPixel := by
  unfold requiredLength at h
  cases bytes : l.rowBytes with
  | error => rw [bytes] at h; cases h
  | ok n =>
      rw [bytes] at h
      obtain rfl := rowBytes_eq_ok bytes
      have some_ : ¬ (l.height = 0 ∨ l.width * l.format.bytesPerPixel = 0) := by
        have := Nat.mul_pos columns l.format.bytesPerPixel_pos
        omega
      simp only [bind, Except.bind, if_neg some_] at h
      split at h
      next found =>
        cases h
        obtain ⟨n, first, second⟩ := Option.bind_eq_some_iff.1 found
        unfold size64? at first second
        split at first <;> cases first
        split at second <;> cases second
        rfl
      next => cases h

/-- What the check of a layout finds out. -/
theorem fits_of_validate (h : l.validate length = .ok ()) : l.Fits length := by
  unfold validate at h
  cases bytes : l.rowBytes with
  | error => rw [bytes] at h; cases h
  | ok n =>
      rw [bytes] at h
      obtain rfl := rowBytes_eq_ok bytes
      simp only [bind, Except.bind] at h
      split at h
      · cases h
      next narrow =>
      cases required : l.requiredLength with
      | error => rw [required] at h; cases h
      | ok needed =>
          rw [required] at h
          refine ⟨by omega, fun row row_ column column_ => ?_⟩
          have enough : needed ≤ length := by
            by_contra short
            simp [Nat.not_le.1 short] at h
          have last := offset_le row_ column_
          rw [requiredLength_eq_ok required (by omega) (by omega)] at enough
          omega

/-- A pixel further down starts behind all pixels of a row. -/
theorem Fits.row_le (fits : l.Fits length) (row_' : row' < l.height) (column_ : column < l.width)
    (here : l.Covers row column i) (there : l.Covers row' column' i) : row' ≤ row := by
  by_contra below
  have rows : (row + 1) * l.stride ≤ row' * l.stride := Nat.mul_le_mul_right _ (by omega)
  have columns : (column + 1) * l.format.bytesPerPixel ≤ l.width * l.format.bytesPerPixel :=
    Nat.mul_le_mul_right _ column_
  have wide := fits.rows.resolve_left (by omega)
  rw [Nat.succ_mul] at rows columns
  unfold Covers offset at here there
  omega

/-- In a row, a pixel further right starts behind a pixel. -/
theorem column_le (here : l.Covers row column i) (there : l.Covers row column' i) :
    column' ≤ column := by
  by_contra right
  have columns : (column + 1) * l.format.bytesPerPixel ≤ column' * l.format.bytesPerPixel :=
    Nat.mul_le_mul_right _ (by omega)
  rw [Nat.succ_mul] at columns
  unfold Covers offset at here there
  omega

/-- No byte belongs to two pixels. -/
theorem Fits.unique (fits : l.Fits length) (row_ : row < l.height) (row_' : row' < l.height)
    (column_ : column < l.width) (column_' : column' < l.width) (here : l.Covers row column i)
    (there : l.Covers row' column' i) : row = row' ∧ column = column' := by
  obtain rfl : row = row' := Nat.le_antisymm (fits.row_le row_ column_' there here)
    (fits.row_le row_' column_ here there)
  exact ⟨rfl, Nat.le_antisymm (column_le there here) (column_le here there)⟩

end

/-! ## Images -/

section

variable {l : Layout} {data out : ByteArray} {index i : Nat} {texels : List (Rgba Float32)}

@[simp] theorem size_encodeFrom : (l.encodeFrom index data texels).size = data.size := by
  induction texels generalizing index data with
  | nil => rfl
  | cons c rest ih => rw [encodeFrom, ih, size_blit]

/-- Bytes that belong to none of the pixels stay. -/
theorem byteAt_encodeFrom_of_not (outside : ∀ j < texels.length,
    ¬ l.Covers ((index + j) / l.width) ((index + j) % l.width) i) :
    byteAt (l.encodeFrom index data texels) i = byteAt data i := by
  induction texels generalizing index data with
  | nil => rfl
  | cons c rest ih =>
      have first := outside 0 (Nat.succ_pos _)
      rw [encodeFrom, ih fun j less => ?_, byteAt_blit_of_not]
      · rw [Format.length_encode]
        unfold Covers at first
        rw [Nat.add_zero] at first
        omega
      · have later := outside (j + 1) (Nat.succ_lt_succ less)
        rwa [← Nat.add_assoc, Nat.add_right_comm] at later

/-- Each pixel holds its texel, as no later one is written over it. -/
theorem slice_encodeFrom (fits : l.Fits data.size) (room : index + texels.length ≤ l.width * l.height)
    {j : Nat} (there : j < texels.length) :
    slice (l.encodeFrom index data texels)
      (l.offset ((index + j) / l.width) ((index + j) % l.width)) l.format.bytesPerPixel =
        l.format.encode texels[j] := by
  induction texels generalizing index data j with
  | nil => cases there
  | cons c rest ih =>
      rw [List.length_cons] at room there
      rw [encodeFrom]
      cases j with
      | succ j =>
          have later := @ih (blit data (l.offset (index / l.width) (index % l.width))
            (l.format.encode c)) (index + 1) (by rwa [size_blit]) (by omega) j
            (Nat.lt_of_succ_lt_succ there)
          rwa [Nat.add_right_comm] at later
      | zero =>
          obtain ⟨column, row⟩ : index % l.width < l.width ∧ index / l.width < l.height :=
            Grid.column_row (by omega)
          have inside := fits.inside _ row _ column
          rw [Nat.add_zero, List.getElem_cons_zero]
          rw [← l.format.length_encode c] at inside ⊢
          refine (slice_congr fun i first last => ?_).trans (slice_blit inside)
          refine byteAt_encodeFrom_of_not fun k less covers => ?_
          obtain ⟨column', row'⟩ : (index + 1 + k) % l.width < l.width ∧
              (index + 1 + k) / l.width < l.height := Grid.column_row (by omega)
          rw [l.format.length_encode c] at last
          obtain ⟨rows, columns⟩ := fits.unique row row' column column' ⟨first, last⟩ covers
          have same : index = index + 1 + k := by
            calc index = index / l.width * l.width + index % l.width := (Nat.div_add_mod' ..).symm
              _ = (index + 1 + k) / l.width * l.width + (index + 1 + k) % l.width := by
                rw [rows, columns]
              _ = index + 1 + k := Nat.div_add_mod' ..
          omega

end

/-- What becomes of a buffer when an image is written into it. -/
structure Written (l : Layout) (texel : Nat → Nat → Rgba Float32) (data out : ByteArray) : Prop where
  size : out.size = data.size
  /-- Every pixel lies in the buffer and holds the bytes of its texel. -/
  pixels : ∀ column < l.width, ∀ row < l.height,
    l.offset row column + l.format.bytesPerPixel ≤ out.size ∧
      slice out (l.offset row column) l.format.bytesPerPixel = l.format.encode (texel column row)
  /-- All other bytes are as they were. -/
  rest : ∀ i, (∀ column < l.width, ∀ row < l.height, ¬ l.Covers row column i) →
    byteAt out i = byteAt data i

section

variable {l : Layout} {data out : ByteArray} {texels : Array (Rgba Float32)}

/-- Writing fails for what the check finds, or because there are too few texels or too many. -/
theorem encode_eq_ok : l.encode texels data = .ok out ↔
    l.validate data.size = .ok () ∧ texels.size = l.width * l.height ∧
      out = l.encodeFrom 0 data texels.toList := by
  unfold encode
  cases l.validate data.size with
  | error => simp [bind, Except.bind]
  | ok =>
      by_cases size : texels.size = l.width * l.height
      · simp [bind, Except.bind, pure, Except.pure, size, eq_comm]
      · simp [bind, Except.bind, size, throw, throwThe, MonadExceptOf.throw]

theorem written_encode {g : Grid Float32} (width : g.width = l.width) (height : g.height = l.height)
    (h : l.encode g.texels data = .ok out) : l.Written (fun x y => g.texel x y) data out := by
  obtain ⟨valid, size, rfl⟩ := encode_eq_ok.1 h
  have fits := fits_of_validate valid
  refine ⟨size_encodeFrom, fun column column_ row row_ => ⟨?_, ?_⟩, fun i outside => ?_⟩
  · rw [size_encodeFrom]
    exact fits.inside row row_ column column_
  · have there : row * l.width + column < g.texels.toList.length := by
      rw [Array.length_toList, size]
      exact Grid.place_lt column_ row_
    have held := @slice_encodeFrom l data 0 g.texels.toList fits (by simp [size]) _ there
    rw [Nat.zero_add, Grid.place_mod column_, Grid.place_div column_] at held
    have texel := Grid.getElem?_texels (g := g) (width ▸ column_) (height ▸ row_)
    rw [width, ← Array.getElem?_toList, List.getElem?_eq_getElem there] at texel
    rw [held, Option.some.inj texel]
  · refine byteAt_encodeFrom_of_not fun j less => ?_
    rw [Array.length_toList, size] at less
    rw [Nat.zero_add]
    obtain ⟨column, row⟩ := Grid.column_row less
    exact outside _ column _ row

/-! ## In place -/

/-- Writing pixel by pixel into the buffer itself. -/
def writeFrom (l : Layout) (index : Nat) : List (Rgba Float32) → StateM ByteArray Unit
  | [] => pure ()
  | c :: rest => do
    modify fun data =>
      blit data (l.offset (index / l.width) (index % l.width)) (l.format.encode c)
    writeFrom l (index + 1) rest

/-- Writing into the buffer itself, if the checks allow it. -/
def write (l : Layout) (texels : Array (Rgba Float32)) : ExceptT Fault (StateM ByteArray) Unit := do
  let data ← get
  ExceptT.mk (pure (l.validate data.size))
  if texels.size ≠ l.width * l.height then
    throw (.format (.texels (l.width * l.height) texels.size))
  ExceptT.lift (l.writeFrom 0 texels.toList)

theorem run_writeFrom (index : Nat) (texels : List (Rgba Float32)) (data : ByteArray) :
    (l.writeFrom index texels).run data = ((), l.encodeFrom index data texels) := by
  induction texels generalizing index data with
  | nil => rfl
  | cons c rest ih => exact ih (index + 1) _

/-- Nothing is written before all checks are done. -/
theorem run_write : (l.write texels).run.run data = match l.encode texels data with
    | .ok out => (.ok (), out)
    | .error fault => (.error fault, data) := by
  have written : (ExceptT.lift (l.writeFrom 0 texels.toList) :
      ExceptT Fault (StateM ByteArray) Unit).run.run data =
        (.ok (), l.encodeFrom 0 data texels.toList) := by
    change (do
      let r ← (l.writeFrom 0 texels.toList).run data
      pure (Except.ok r.1, r.2) : Id (Except Fault Unit × ByteArray)) = _
    rw [run_writeFrom]
    rfl
  change (do
    ExceptT.mk (pure (l.validate data.size))
    if texels.size ≠ l.width * l.height then
      throw (.format (.texels (l.width * l.height) texels.size))
    ExceptT.lift (l.writeFrom 0 texels.toList) : ExceptT Fault (StateM ByteArray) Unit).run.run data = _
  unfold encode
  cases l.validate data.size with
  | error => rfl
  | ok =>
      by_cases size : texels.size ≠ l.width * l.height
      · rw [if_pos size, if_pos size]
        rfl
      · rw [if_neg size, if_neg size]
        exact written

end

end Layout
end PixelKernel.Pixel
