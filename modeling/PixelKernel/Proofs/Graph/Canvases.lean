import Mathlib.Logic.Function.Basic
import PixelKernel.Proofs.Graph.Agreement
import PixelKernel.Proofs.Pixel.Grids

/-! # Canvases that are drawn on

Drawing changes the colours of one canvas and nothing else of a store. Each drawing reads images
as they were when it began, its own canvas included, so what canvases show in the end follows
from what they showed at first by taking the drawings one after the other.
-/

namespace PixelKernel.Graph

open Pixel (Grid)
open PixelKernel.Language (Trap)

/-- Something that is drawn on a canvas. An image that is drawn in its own place has its origin
    at the point of origin. -/
inductive Drawing where
  | clear (canvas : Nat) (colour : Rgba Float32)
  | composite (canvas n : Nat) (origin : Point Float)

namespace Drawing

def canvas : Drawing → Nat
  | clear i _ | composite i _ _ => i

def operation : Drawing → Operation Float Float32
  | clear i colour => .clear i colour
  | composite i n origin => .composite i n origin

/-- The store that a drawing leaves, whatever it answers. -/
def perform (s : Store Float Float32) (d : Drawing) : Store Float Float32 :=
  (d.operation.perform runForColour s).2

end Drawing

/-- What canvases show: a colour for each canvas, column and row. -/
abbrev Contents := Nat → Nat → Nat → Rgba Float32

/-- The canvas with other colours. -/
def Canvas.painted (c : Canvas Float Float32) (f : Nat → Nat → Rgba Float32) :
    Canvas Float Float32 :=
  { c with grid := .tabulate c.grid.width c.grid.height f }

namespace Store

def contents (s : Store Float Float32) : Contents := fun i x y =>
  match s.canvases[i]? with
  | none => .transparent
  | some c => c.grid.texel x y

/-- The store with other contents of its canvases. -/
def showing (s : Store Float Float32) (p : Contents) : Store Float Float32 :=
  { s with canvases := s.canvases.mapIdx fun i c => c.painted (p i) }

/-- Colour of an image at the middle of a pixel of a canvas, when the image's origin is put at
    `origin`. -/
def under (s : Store Float Float32) (c : Canvas Float Float32) (n : Nat) (origin : Point Float)
    (x y : Nat) : Except Trap (Rgba Float32) :=
  s.colour (runForColour c.limits.instructions) n
    ⟨c.extent.x0 + Scalar.ofNat x + Scalar.half - origin.x,
      c.extent.y0 + Scalar.ofNat y + Scalar.half - origin.y⟩

/-- The image can be planned, and it has a colour under each pixel. -/
structure Draws (s : Store Float Float32) (c : Canvas Float Float32) (n : Nat)
    (origin : Point Float) : Prop where
  planned : (Plan.forImage s c.limits n).isOk
  colours : ∀ x < c.grid.width, ∀ y < c.grid.height, (s.under c n origin x y).isOk

instance (s : Store Float Float32) (c : Canvas Float Float32) (n : Nat) (origin : Point Float) :
    Decidable (s.Draws c n origin) :=
  decidable_of_iff ((Plan.forImage s c.limits n).isOk ∧
      ∀ x < c.grid.width, ∀ y < c.grid.height, (s.under c n origin x y).isOk)
    ⟨fun h => ⟨h.1, h.2⟩, fun h => ⟨h.planned, h.colours⟩⟩

/-- Colours of a canvas after the image is laid over them. -/
def laid (s : Store Float Float32) (c : Canvas Float Float32) (n : Nat) (origin : Point Float)
    (old : Nat → Nat → Rgba Float32) (x y : Nat) : Rgba Float32 :=
  ((s.under c n origin x y).toOption.getD .transparent).onto (old x y)

/-- What canvases show after a drawing, when they showed `p` before. The drawing reads the store
    as it is with just these contents. -/
def after (s : Store Float Float32) (p : Contents) : Drawing → Contents
  | .clear i colour => Function.update p i fun _ _ => colour
  | .composite i n origin =>
    match (s.showing p).canvases[i]? with
    | none => p
    | some c =>
      if (s.showing p).Draws c n origin then
        Function.update p i ((s.showing p).laid c n origin (p i))
      else p

/-! ## Contents -/

variable {s : Store Float Float32} {p : Contents} {i : Nat} {c : Canvas Float Float32}

theorem getElem?_showing (s : Store Float Float32) (p : Contents) (i : Nat) :
    (s.showing p).canvases[i]? = (s.canvases[i]?).map fun c => c.painted (p i) := by
  simp [showing]

theorem showing_contents (s : Store Float Float32) : s.showing s.contents = s := by
  have canvases : (s.showing s.contents).canvases = s.canvases := by
    refine Array.ext_getElem? fun i => ?_
    rw [getElem?_showing]
    cases there : s.canvases[i]? with
    | none => rfl
    | some c =>
        have grid : Grid.tabulate c.grid.width c.grid.height (s.contents i) = c.grid :=
          (Grid.eq_tabulate_iff.2 ⟨rfl, rfl, fun x _ y _ => by simp [contents, there]⟩).symm
        rw [Option.map_some, Canvas.painted, grid]
  exact congrArg (fun cs => { s with canvases := cs }) canvases

theorem texel_showing (there : (s.showing p).canvases[i]? = some c) {x y : Nat}
    (column : x < c.grid.width) (row : y < c.grid.height) : c.grid.texel x y = p i x y := by
  rw [getElem?_showing] at there
  obtain ⟨c, -, rfl⟩ := Option.map_eq_some_iff.1 there
  exact Grid.texel_tabulate column row

/-- A canvas that is not there shows nothing. -/
theorem showing_update_none (none_ : (s.showing p).canvases[i]? = none)
    (f : Nat → Nat → Rgba Float32) : s.showing (Function.update p i f) = s.showing p := by
  have canvases : (s.showing (Function.update p i f)).canvases = (s.showing p).canvases := by
    refine Array.ext_getElem? fun j => ?_
    by_cases same : j = i
    · subst same
      rw [none_]
      rw [getElem?_showing, Option.map_eq_none_iff] at none_ ⊢
      exact none_
    · rw [getElem?_showing, getElem?_showing, Function.update_of_ne same]
  exact congrArg (fun cs => { s with canvases := cs }) canvases

/-- Painting one canvas is showing other contents of it. -/
theorem setCanvas_showing (there : (s.showing p).canvases[i]? = some c)
    (f : Nat → Nat → Rgba Float32) :
    (s.showing p).setCanvas i (c.painted f) = s.showing (Function.update p i f) := by
  have canvases : (s.showing p).canvases.setIfInBounds i (c.painted f) =
      (s.showing (Function.update p i f)).canvases := by
    refine Array.ext_getElem? fun j => ?_
    by_cases same : j = i
    · subst same
      obtain ⟨inside, -⟩ := Array.getElem?_eq_some_iff.1 there
      rw [getElem?_showing] at there ⊢
      obtain ⟨c, here, rfl⟩ := Option.map_eq_some_iff.1 there
      rw [Array.getElem?_setIfInBounds_self_of_lt inside, here, Function.update_self]
      rfl
    · rw [Array.getElem?_setIfInBounds_ne (Ne.symm same), getElem?_showing, getElem?_showing,
        Function.update_of_ne same]
  exact congrArg (fun cs => { s with canvases := cs }) canvases

theorem Wired.showing (wired : s.Wired) (p : Contents) : (s.showing p).Wired :=
  wired.of_fewer rfl id

theorem Sourced.showing (sourced : s.Sourced) (p : Contents) : (s.showing p).Sourced :=
  ⟨sourced.compiled, sourced.places, sourced.typed⟩

/-! ## One drawing -/

section

variable {ε : Type} {source : Point Float → Except ε (Rgba Float32)}

theorem overlay_eq {f : Nat → Nat → Rgba Float32} (colours : ∀ x < c.grid.width,
      ∀ y < c.grid.height, source (c.pixelCenter x y) = .ok (f x y)) :
    c.overlay source = .ok (c.painted fun x y => (f x y).onto (c.grid.texel x y)) := by
  have built : (Grid.build c.grid.width c.grid.height fun column row => do
      let src ← source (c.pixelCenter column row)
      return src.onto (c.grid.texel column row)) = .ok (.tabulate c.grid.width c.grid.height
        fun x y => (f x y).onto (c.grid.texel x y)) := by
    refine Grid.build_eq_ok.2 ⟨rfl, rfl, fun x column y row => ?_⟩
    rw [Grid.texel_tabulate column row, colours x column y row]
    rfl
  rw [Canvas.overlay, built]
  rfl

theorem overlay_of_isOk
    (colours : ∀ x < c.grid.width, ∀ y < c.grid.height, (source (c.pixelCenter x y)).isOk) :
    c.overlay source = .ok (c.painted fun x y =>
      ((source (c.pixelCenter x y)).toOption.getD .transparent).onto (c.grid.texel x y)) := by
  refine overlay_eq fun x column y row => ?_
  obtain ⟨colour, found⟩ := isOk_iff.1 (colours x column y row)
  rw [found]
  rfl

/-- Colours are laid over a canvas if there is one for each pixel. -/
theorem overlay_eq_ok {c' : Canvas Float Float32} : c.overlay source = .ok c' ↔
    (∀ x < c.grid.width, ∀ y < c.grid.height, (source (c.pixelCenter x y)).isOk) ∧
      c' = c.painted fun x y =>
        ((source (c.pixelCenter x y)).toOption.getD .transparent).onto (c.grid.texel x y) := by
  constructor
  · intro laid
    have colours : ∀ x < c.grid.width, ∀ y < c.grid.height,
        (source (c.pixelCenter x y)).isOk := by
      intro x column y row
      cases found : source (c.pixelCenter x y) with
      | ok colour => rfl
      | error e =>
          cases built : Grid.build c.grid.width c.grid.height fun column row => do
              let src ← source (c.pixelCenter column row)
              return src.onto (c.grid.texel column row) with
          | error => rw [Canvas.overlay, built] at laid; cases laid
          | ok g =>
              have texel := (Grid.build_eq_ok.1 built).2.2 x column y row
              rw [found] at texel
              cases texel
    exact ⟨colours, Except.ok.inj (laid.symm.trans (overlay_of_isOk colours))⟩
  · rintro ⟨colours, rfl⟩
    exact overlay_of_isOk colours

end

/-- An image is drawn if it can be planned and has all its colours, and then these are laid over
    the canvas. -/
theorem Wired.drawn_eq_ok (wired : s.Wired) (sourced : s.Sourced) {c' : Canvas Float Float32}
    {n : Nat} {origin : Point Float} : s.drawn runForColour c n origin = .ok c' ↔
      s.Draws c n origin ∧ c' = c.painted (s.laid c n origin fun x y => c.grid.texel x y) := by
  unfold Store.drawn
  cases planned : Plan.forImage s c.limits n with
  | error fault =>
      refine ⟨nofun, fun ⟨draws, _⟩ => ?_⟩
      obtain ⟨plan, same⟩ := isOk_iff.1 draws.planned
      rw [planned] at same
      cases same
  | ok plan =>
      let source (p : Point Float) :=
        plan.rootColour (runForColour c.limits.instructions) ⟨p.x - origin.x, p.y - origin.y⟩
      have under (x y : Nat) : source (c.pixelCenter x y) = s.under c n origin x y :=
        congrFun (wired.rootColour_eq sourced planned _) _
      have draws : s.Draws c n origin ↔ ∀ x < c.grid.width, ∀ y < c.grid.height,
          (source (c.pixelCenter x y)).isOk := by
        simp only [under]
        exact ⟨(·.colours), fun colours => ⟨isOk_iff.2 ⟨plan, planned⟩, colours⟩⟩
      have overlaid := @overlay_eq_ok c Trap source c'
      rw [← draws] at overlaid
      simp only [under] at overlaid
      refine Iff.trans ?_ overlaid
      change (c.overlay source).mapError Fault.ofTrap = .ok c' ↔ _
      cases c.overlay source <;> simp [Except.mapError]

theorem laid_congr {f g : Nat → Nat → Rgba Float32} {n : Nat} {origin : Point Float}
    (same : ∀ x < c.grid.width, ∀ y < c.grid.height, f x y = g x y) :
    c.painted (s.laid c n origin f) = c.painted (s.laid c n origin g) := by
  have grid : Grid.tabulate c.grid.width c.grid.height (s.laid c n origin f) =
      .tabulate c.grid.width c.grid.height (s.laid c n origin g) := by
    refine Grid.eq_tabulate_iff.2 ⟨rfl, rfl, fun x column y row => ?_⟩
    rw [Grid.texel_tabulate column row, laid, laid, same x column y row]
  rw [Canvas.painted, grid, Canvas.painted]

/-- What a composite answers, and the store that it leaves. -/
theorem Wired.composite_showing (wired : s.Wired) (sourced : s.Sourced)
    (there : (s.showing p).canvases[i]? = some c) (n : Nat) (origin : Point Float) :
    ((s.showing p).Draws c n origin ∧ (s.showing p).composite runForColour i n origin =
      (.ok (), s.showing (Function.update p i ((s.showing p).laid c n origin (p i))))) ∨
    (¬ (s.showing p).Draws c n origin ∧ ∃ fault,
      (s.showing p).composite runForColour i n origin = (.error fault, s.showing p)) := by
  have drawn_iff (c' : Canvas Float Float32) :
      (s.showing p).drawn runForColour c n origin = .ok c' ↔ _ :=
    (wired.showing p).drawn_eq_ok (sourced.showing p)
  simp only [composite, there]
  cases drawn : (s.showing p).drawn runForColour c n origin with
  | error fault =>
      refine .inr ⟨fun draws => ?_, fault, rfl⟩
      have possible := (drawn_iff _).2 ⟨draws, rfl⟩
      rw [drawn] at possible
      cases possible
  | ok c' =>
      obtain ⟨draws, rfl⟩ := (drawn_iff c').1 drawn
      refine .inl ⟨draws, ?_⟩
      rw [laid_congr fun x column y row => texel_showing there column row]
      exact congrArg _ (setCanvas_showing there _)

theorem after_composite (there : (s.showing p).canvases[i]? = some c) (n : Nat)
    (origin : Point Float) : s.after p (.composite i n origin) =
      if (s.showing p).Draws c n origin then
        Function.update p i ((s.showing p).laid c n origin (p i))
      else p := by
  simp only [after, there]

/-- What canvases that are not drawn on show stays. -/
theorem after_of_ne {d : Drawing} (other : d.canvas ≠ i) (p : Contents) : s.after p d i = p i := by
  cases d with
  | clear j colour => exact Function.update_of_ne (Ne.symm other) _ _
  | composite j n origin =>
      cases there : (s.showing p).canvases[j]? with
      | none => simp only [after, there]
      | some c =>
          rw [after_composite there]
          split
          · exact Function.update_of_ne (Ne.symm other) _ _
          · rfl

/-- A drawing changes what canvases show, and nothing else. -/
theorem Wired.perform_showing (wired : s.Wired) (sourced : s.Sourced) (p : Contents)
    (d : Drawing) : d.perform (s.showing p) = s.showing (s.after p d) := by
  cases d with
  | clear i colour =>
      change (s.showing p).clear i colour = s.showing (Function.update p i fun _ _ => colour)
      unfold Store.clear
      cases there : (s.showing p).canvases[i]? with
      | none => exact (showing_update_none there _).symm
      | some c =>
          rw [← setCanvas_showing there, Canvas.painted, ← Grid.fill_eq]
          rfl
  | composite i n origin =>
      change ((s.showing p).composite runForColour i n origin).2 = _
      cases there : (s.showing p).canvases[i]? with
      | none => simp only [composite, after, there]
      | some c =>
          rw [after_composite there]
          rcases wired.composite_showing sourced there n origin with
            ⟨draws, done⟩ | ⟨fails, fault, failed⟩
          · rw [done, if_pos draws]
          · rw [failed, if_neg fails]

/-- Drawings one after the other. -/
theorem Wired.foldl_perform (wired : s.Wired) (sourced : s.Sourced) (drawings : List Drawing)
    (p : Contents) : drawings.foldl Drawing.perform (s.showing p) =
      s.showing (drawings.foldl s.after p) := by
  induction drawings generalizing p with
  | nil => rfl
  | cons d drawings ih =>
      rw [List.foldl_cons, wired.perform_showing sourced, ih, List.foldl_cons]

theorem foldl_after_of_ne {drawings : List Drawing} (other : ∀ d ∈ drawings, d.canvas ≠ i)
    (p : Contents) : drawings.foldl s.after p i = p i := by
  induction drawings generalizing p with
  | nil => rfl
  | cons d drawings ih =>
      obtain ⟨here, there⟩ := List.forall_mem_cons.1 other
      rw [List.foldl_cons, ih there, after_of_ne here]

/-- What comes of a store when things are drawn on its canvases. -/
structure Accumulates (s₀ : Store Float Float32) (drawings : List Drawing)
    (s : Store Float Float32) : Prop where
  /-- Nothing but what canvases show has changed, and they show what the drawings make of what
      they showed before, taken one after the other. -/
  store : s = s₀.showing (drawings.foldl s₀.after s₀.contents)
  /-- A canvas keeps its extent and the size of its grid, and all its pixels are as they should
      be. -/
  pixels : ∀ {i c₀}, s₀.canvases[i]? = some c₀ → ∃ c, s.canvases[i]? = some c ∧
    c.extent = c₀.extent ∧ c.limits = c₀.limits ∧ c.grid.width = c₀.grid.width ∧
    c.grid.height = c₀.grid.height ∧ c.grid.texels.size = c₀.grid.texels.size ∧
    ∀ x < c.grid.width, ∀ y < c.grid.height,
      c.grid.texel x y = drawings.foldl s₀.after s₀.contents i x y
  /-- Canvases that nothing is drawn on are unaffected. -/
  others : ∀ i, (∀ d ∈ drawings, d.canvas ≠ i) → s.canvases[i]? = s₀.canvases[i]?
  /-- Clearing always succeeds. -/
  clears : ∀ i colour, ((Drawing.clear i colour).operation.perform runForColour s).1 = .ok ()
  /-- An image can now be drawn on a canvas if it can be planned and has all its colours. -/
  draws : ∀ {i c}, s.canvases[i]? = some c → ∀ n origin,
    ((Drawing.composite i n origin).operation.perform runForColour s).1 = .ok () ↔
      s.Draws c n origin
  /-- What fails to be drawn changes nothing at all. -/
  failed : ∀ (d : Drawing) fault, (d.operation.perform runForColour s).1 = .error fault →
    d.perform s = s

theorem Wired.accumulated (wired : s.Wired) (sourced : s.Sourced) (drawings : List Drawing) :
    s.Accumulates drawings (drawings.foldl Drawing.perform s) := by
  have store := wired.foldl_perform sourced drawings s.contents
  rw [showing_contents] at store
  rw [store]
  exact {
    store := rfl
    pixels := fun {i c₀} there => by
      have found := getElem?_showing s (drawings.foldl s.after s.contents) i
      rw [there] at found
      refine ⟨_, found, rfl, rfl, rfl, rfl, ?_, fun x column y row => ?_⟩
      · exact (Canvas.painted c₀ _).grid.full.trans c₀.grid.full.symm
      · exact texel_showing found column row
    others := fun i other => by
      have same : (s.showing s.contents).canvases[i]? = s.canvases[i]? := by
        rw [showing_contents]
      rw [← same, getElem?_showing, getElem?_showing, foldl_after_of_ne other]
    clears := fun i colour => rfl
    draws := fun {i c} there n origin => by
      change (composite _ runForColour i n origin).1 = _ ↔ _
      rcases wired.composite_showing sourced there n origin with
        ⟨draws, done⟩ | ⟨fails, fault, failed⟩
      · simp [done, draws]
      · simp [failed, fails]
    failed := fun d fault failed => by
      cases d with
      | clear i colour => cases failed
      | composite i n origin =>
          change (composite _ runForColour i n origin).1 = _ at failed
          change (composite _ runForColour i n origin).2 = _
          unfold composite at failed ⊢
          split at failed
          · rfl
          · split at failed
            · rfl
            · cases failed }

end Store

/-- Whatever is done to a store, drawings on its canvases accumulate. -/
theorem Reached.accumulates {ops : List (Operation Float Float32)} {s : Store Float Float32}
    (h : Reached runForColour ops s) (drawings : List Drawing) :
    s.Accumulates drawings (drawings.foldl Drawing.perform s) :=
  (Store.Wired.of_reached h).accumulated (.of_reached h) drawings

/-- A canvas of one pixel, and its image. -/
def mirror : Store Float Float32 where
  kernels := #[]
  nodes := #[.canvas 0]
  canvases := #[⟨⟨0, 0, 1, 1⟩, .standard, .filled 1 1 .transparent⟩]
  subscriptions := 0

theorem reached_mirror : Reached runForColour
    [.newNode (.canvas 0), .newCanvas ⟨0, 0, 1, 1⟩ .standard fun _ => true] mirror := by
  let unit : Rect Float := ⟨0, 0, 1, 1⟩
  have made : Canvas.new unit .standard (fun _ => true) =
      .ok (⟨unit, .standard, .filled 1 1 .transparent⟩ : Canvas Float Float32) := by
    have usable : (!unit.isFinite || unit.isInfinite || Scalar.less unit.width Scalar.zero
        || Scalar.less unit.height Scalar.zero) = false := by decide +kernel
    have width : Canvas.pixels? unit.width = some 1 := by decide +kernel
    have height : Canvas.pixels? unit.height = some 1 := by decide +kernel
    simp only [Canvas.new, usable, width, height]
    rfl
  have canvas : Reached runForColour [.newCanvas unit .standard fun _ => true]
      { mirror with nodes := #[] } := by
    have names : (.newCanvas unit .standard fun _ => true : Operation Float Float32).Names .new :=
      trivial
    have step := Reached.step (.new : Reached runForColour [] .new) names
    simp only [Operation.perform, made] at step
    exact step
  have names : (Operation.newNode (.canvas 0)).Names { mirror with nodes := #[] } :=
    Nat.zero_lt_one
  exact .step canvas names

/-- The canvas is filled with a colour that is not opaque, and then its image is laid over it. -/
theorem mirror_accumulated : ∃ c,
    ([Drawing.clear 0 ⟨0, 0, 0, 0.5⟩, .composite 0 0 ⟨0, 0⟩].foldl Drawing.perform
      mirror).canvases[0]? = some c ∧ c.grid.texel 0 0 = ⟨0, 0, 0, 0.75⟩ := by
  have drawn := reached_mirror.accumulates [.clear 0 ⟨0, 0, 0, 0.5⟩, .composite 0 0 ⟨0, 0⟩]
  obtain ⟨c, there, -, -, width, height, -, texels⟩ := drawn.pixels
    (rfl : mirror.canvases[0]? = some ⟨⟨0, 0, 1, 1⟩, .standard, .filled 1 1 .transparent⟩)
  refine ⟨c, there, (texels 0 (width ▸ Nat.zero_lt_one) 0 (height ▸ Nat.zero_lt_one)).trans ?_⟩
  decide +kernel

end PixelKernel.Graph
