import PixelKernel.Graph.Render
import PixelKernel.Proofs.Graph.Agreement
import PixelKernel.Proofs.Pixel.Writing

/-! # Rendering is all or nothing

Nothing is written before the last pixel has its colour. So a buffer holds the whole image in the
end, or what it held before.
-/

namespace PixelKernel.Graph

open Pixel (Grid Layout)
open PixelKernel.Language (Trap)

namespace Store

/-! ## Colours of a grid -/

section

variable {κ χ : Type} [Scalar κ] [Scalar χ] [Narrow κ χ] {s : Store κ χ} {run : Nat → Runner κ χ}
  {limits : Limits} {n width height : Nat} {rect : Rect κ} {g : Grid χ}

theorem render_eq_ok : s.render run limits n rect width height = .ok g ↔
    rect.isFinite = true ∧ ∃ plan, Plan.forImage s limits n = .ok plan ∧
      plan.render (run limits.instructions) rect width height = .ok g := by
  unfold render
  cases finite : rect.isFinite with
  | false => simp [Bind.bind, Except.bind, throw, throwThe, MonadExceptOf.throw]
  | true =>
      cases planned : Plan.forImage s limits n with
      | error => simp [Bind.bind, Except.bind]
      | ok plan =>
          simp only [Bind.bind, Except.bind, Bool.not_true, Bool.false_eq_true, if_false, true_and,
            Except.ok.injEq, exists_eq_left']
          cases plan.render (run limits.instructions) rect width height with
          | error => simp [Except.mapError]
          | ok => simp [Except.mapError]

end

variable {s : Store Float Float32} {limits : Limits} {n : Nat} {rect : Rect Float}

/-- A grid is rendered if the image can be planned and has a colour at every pixel center. -/
theorem Wired.render_eq_ok (wired : s.Wired) (sourced : s.Sourced) {width height : Nat}
    {g : Grid Float32} : s.render runForColour limits n rect width height = .ok g ↔
      rect.isFinite = true ∧ (∃ plan, Plan.forImage s limits n = .ok plan) ∧
        g.width = width ∧ g.height = height ∧ ∀ column < width, ∀ row < height,
          s.colour (runForColour limits.instructions) n (rect.pixelCenter width height column row) =
            .ok (g.texel column row) := by
  rw [Store.render_eq_ok]
  refine and_congr_right fun _ => ?_
  constructor
  · rintro ⟨plan, planned, rendered⟩
    rw [Plan.render, wired.rootColour_eq sourced planned, Grid.build_eq_ok] at rendered
    exact ⟨⟨plan, planned⟩, rendered⟩
  · rintro ⟨⟨plan, planned⟩, rendered⟩
    refine ⟨plan, planned, ?_⟩
    rw [Plan.render, wired.rootColour_eq sourced planned, Grid.build_eq_ok]
    exact rendered

/-! ## Rendering into a buffer -/

/-- Rendering into the buffer itself. -/
def renderInPlace (s : Store Float Float32) (limits : Limits) (n : Nat) (rect : Rect Float)
    (l : Layout) : ExceptT Fault (StateM ByteArray) Unit := do
  let data ← get
  ExceptT.mk (pure (l.validate data.size))
  let grid ← ExceptT.mk (pure (s.render runForColour limits n rect l.width l.height))
  l.write grid.texels

variable {l : Layout} {data out : ByteArray}

/-- The buffer is what rendering answers; after a failure it is what it was. -/
theorem run_renderInPlace : (s.renderInPlace limits n rect l).run.run data =
    match s.renderInto limits n rect l data with
    | .ok out => (.ok (), out)
    | .error fault => (.error fault, data) := by
  change (do
    ExceptT.mk (pure (l.validate data.size))
    let grid ← ExceptT.mk (pure (s.render runForColour limits n rect l.width l.height))
    l.write grid.texels : ExceptT Fault (StateM ByteArray) Unit).run.run data = _
  unfold renderInto
  cases l.validate data.size with
  | error => rfl
  | ok =>
      cases s.render runForColour limits n rect l.width l.height with
      | error => rfl
      | ok grid => exact Layout.run_write

theorem renderInto_eq_ok : s.renderInto limits n rect l data = .ok out ↔
    l.validate data.size = .ok () ∧ ∃ grid,
      s.render runForColour limits n rect l.width l.height = .ok grid ∧
        l.encode grid.texels data = .ok out := by
  unfold renderInto
  cases l.validate data.size with
  | error => simp [Bind.bind, Except.bind]
  | ok => cases s.render runForColour limits n rect l.width l.height <;> simp [Bind.bind, Except.bind]

/-- What rendering leaves in a buffer. -/
structure RendersWhole (s : Store Float Float32) (limits : Limits) (n : Nat) (rect : Rect Float)
    (l : Layout) (data : ByteArray) : Prop where
  /-- The buffer that is written in place is the one that rendering answers. -/
  inPlace : (s.renderInPlace limits n rect l).run.run data =
    match s.renderInto limits n rect l data with
    | .ok out => (.ok (), out)
    | .error fault => (.error fault, data)
  failed : ∀ fault out, (s.renderInPlace limits n rect l).run.run data = (.error fault, out) →
    out = data
  /-- All pixels hold the colours of the image at their centers, and all else is as before. -/
  filled : ∀ out, (s.renderInPlace limits n rect l).run.run data = (.ok (), out) → ∃ texel,
    (∀ column < l.width, ∀ row < l.height,
      s.colour (runForColour limits.instructions) n
        (rect.pixelCenter l.width l.height column row) = .ok (texel column row)) ∧
      l.Written texel data out
  /-- There is an image unless one of the checks or one of the pixels fails. -/
  succeeds : (∃ out, (s.renderInPlace limits n rect l).run.run data = (.ok (), out)) ↔
    l.validate data.size = .ok () ∧ rect.isFinite = true ∧
      (∃ plan, Plan.forImage s limits n = .ok plan) ∧ ∀ column < l.width, ∀ row < l.height,
        ∃ c, s.colour (runForColour limits.instructions) n
          (rect.pixelCenter l.width l.height column row) = .ok c

theorem renderInPlace_eq_ok : (s.renderInPlace limits n rect l).run.run data = (.ok (), out) ↔
    s.renderInto limits n rect l data = .ok out := by
  rw [run_renderInPlace]
  cases s.renderInto limits n rect l data with
  | error => exact ⟨nofun, nofun⟩
  | ok => exact ⟨fun same => by cases same; rfl, fun same => by cases same; rfl⟩

theorem Wired.rendersWhole (wired : s.Wired) (sourced : s.Sourced) :
    s.RendersWhole limits n rect l data where
  inPlace := run_renderInPlace
  failed fault out failed := by
    rw [run_renderInPlace] at failed
    cases rendered : s.renderInto limits n rect l data with
    | ok => rw [rendered] at failed; cases failed
    | error => rw [rendered] at failed; cases failed; rfl
  filled out done := by
    obtain ⟨valid, grid, rendered, encoded⟩ := renderInto_eq_ok.1 (renderInPlace_eq_ok.1 done)
    obtain ⟨-, -, width, height, colours⟩ := (wired.render_eq_ok sourced).1 rendered
    exact ⟨fun column row => grid.texel column row, colours,
      Layout.written_encode width height encoded⟩
  succeeds := by
    simp only [renderInPlace_eq_ok, renderInto_eq_ok]
    constructor
    · rintro ⟨out, valid, grid, rendered, -⟩
      obtain ⟨finite, planned, -, -, colours⟩ := (wired.render_eq_ok sourced).1 rendered
      exact ⟨valid, finite, planned, fun column column_ row row_ =>
        ⟨_, colours column column_ row row_⟩⟩
    · rintro ⟨valid, finite, planned, colours⟩
      let grid : Grid Float32 := .tabulate l.width l.height fun column row =>
        (s.colour (runForColour limits.instructions) n
          (rect.pixelCenter l.width l.height column row)).toOption.getD .transparent
      have rendered : s.render runForColour limits n rect l.width l.height = .ok grid := by
        refine (wired.render_eq_ok sourced).2 ⟨finite, planned, rfl, rfl, ?_⟩
        intro column column_ row row_
        obtain ⟨c, colour⟩ := colours column column_ row row_
        rw [Grid.texel_tabulate column_ row_, colour]
        rfl
      exact ⟨_, valid, grid, rendered, Layout.encode_eq_ok.2 ⟨valid, grid.full, rfl⟩⟩

end Store

/-- Whatever is done to a store, its images are rendered as a whole or not at all. -/
theorem Reached.renders_whole {ops : List (Operation Float Float32)} {s : Store Float Float32}
    (h : Reached runForColour ops s) (limits : Limits) (n : Nat) (rect : Rect Float) (l : Layout)
    (data : ByteArray) : s.RendersWhole limits n rect l data :=
  (Store.Wired.of_reached h).rendersWhole (.of_reached h)

/-- A picture of two texels, red and blue. -/
def twoTexels : Pixel.Grid Float32 := ⟨2, 1, #[⟨1, 0, 0, 1⟩, ⟨0, 0, 1, 1⟩], rfl⟩

/-- The picture alone. -/
def picture : Store Float Float32 where
  kernels := #[]
  nodes := #[.buffer (.ofGrid twoTexels)]
  canvases := #[]
  subscriptions := 0

theorem reached_picture : Reached runForColour [.newNode (.buffer (.ofGrid twoTexels))] picture :=
  .step .new (show (Node.buffer (.ofGrid twoTexels) : Node Float Float32).Refers .new from trivial)

/-- The picture and the row below it, over bytes that were full. The rows are padded by four bytes,
    which stay. -/
theorem picture_rendered : ∃ out,
    (picture.renderInPlace .standard 0 ⟨0, 0, 2, 2⟩ ⟨2, 2, 12, .rgba32⟩).run.run
      (Layout.blank 24 255) = (.ok (), out) ∧
    (∀ column < 2, ∀ row < 2, Layout.slice out (row * 12 + column * 4) 4 =
      Pixel.Format.rgba32.encode (twoTexels.texel column row)) ∧
    ∀ i < 24, 8 ≤ i % 12 → Layout.byteAt out i = 255 := by
  have whole := reached_picture.renders_whole .standard 0 ⟨0, 0, 2, 2⟩ ⟨2, 2, 12, .rgba32⟩
    (Layout.blank 24 255)
  have colour (p : Point Float) :
      picture.colour (runForColour Limits.standard.instructions) 0 p =
        .ok (twoTexels.sample false p) := rfl
  obtain ⟨out, done⟩ := whole.succeeds.2
    ⟨by decide, by decide +kernel, ⟨_, rfl⟩, fun _ _ _ _ => ⟨_, colour _⟩⟩
  obtain ⟨texel, colours, written⟩ := whole.filled out done
  have centers : ∀ column < 2, ∀ row < 2,
      twoTexels.sample false ((⟨0, 0, 2, 2⟩ : Rect Float).pixelCenter 2 2 column row) =
        twoTexels.texel column row := by decide +kernel
  refine ⟨out, done, fun column column_ row row_ => ?_, fun i inside padding => ?_⟩
  · have shown := (colours column column_ row row_).symm.trans (colour _)
    have pixel := (written.pixels column column_ row row_).2
    rwa [Except.ok.inj shown, centers column column_ row row_] at pixel
  · have full : ∀ i < 24, Layout.byteAt (Layout.blank 24 255) i = 255 := by decide
    rw [written.rest i fun column column_ row row_ covers => ?_, full i inside]
    obtain ⟨behind, before⟩ := covers
    simp only [Layout.offset, Pixel.Format.bytesPerPixel] at column_ behind before
    omega

end PixelKernel.Graph
