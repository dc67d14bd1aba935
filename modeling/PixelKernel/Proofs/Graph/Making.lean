import PixelKernel.Proofs.Graph.History
import PixelKernel.Proofs.Pixel.Grids

/-! # Canvases as they were made

Whatever is drawn on a canvas, it keeps the extent that it was made for and the size of the grid
that covered it then.
-/

namespace PixelKernel.Graph

variable {κ χ : Type} [Scalar κ] [Scalar χ]

namespace Canvas

variable {c c' : Canvas κ χ} {extent : Rect κ} {limits : Limits} {allocates : Nat → Bool}

/-- But for what it shows, the canvas is a new one. -/
def Made (c : Canvas κ χ) : Prop :=
  ∃ allocates, ∃ c₀ : Canvas κ χ, Canvas.new c.extent c.limits allocates = .ok c₀ ∧
    c.grid.width = c₀.grid.width ∧ c.grid.height = c₀.grid.height

/-- A new canvas has the extent and the limits that were asked for, and a grid that covers it. -/
theorem new_eq_ok (h : Canvas.new extent limits allocates = .ok c) :
    c.extent = extent ∧ c.limits = limits ∧ extent.isFinite = true ∧
      Scalar.less extent.width Scalar.zero = false ∧
      Scalar.less extent.height Scalar.zero = false ∧
      pixels? extent.width = some c.grid.width ∧ pixels? extent.height = some c.grid.height := by
  simp only [Canvas.new, bind, Except.bind, pure, Except.pure, throw, throwThe,
    MonadExceptOf.throw] at h
  split at h
  · cases h
  next sound =>
  simp only [Bool.or_eq_true, Bool.not_eq_true', not_or, Bool.not_eq_true, Bool.not_eq_false]
    at sound
  obtain ⟨⟨⟨finite, -⟩, wide⟩, high⟩ := sound
  split at h
  · next columns rows =>
    split at h
    · cases h
    · split at h
      · cases h
      · cases h
        exact ⟨rfl, rfl, finite, wide, high, columns, rows⟩
  · cases h

theorem made_of_new (h : Canvas.new extent limits allocates = .ok c) : c.Made := by
  obtain ⟨extent_, limits_, -⟩ := new_eq_ok h
  exact ⟨allocates, c, by rw [extent_, limits_, h], rfl, rfl⟩

theorem Made.of_same (made : c.Made) (extent : c'.extent = c.extent) (limits : c'.limits = c.limits)
    (width : c'.grid.width = c.grid.width) (height : c'.grid.height = c.grid.height) : c'.Made := by
  obtain ⟨allocates, c₀, new, width₀, height₀⟩ := made
  exact ⟨allocates, c₀, by rw [extent, limits, new], width.trans width₀, height.trans height₀⟩

theorem Made.overlay {ε : Type} {source : Point κ → Except ε (Rgba χ)} (made : c.Made)
    (laid : c.overlay source = .ok c') : c'.Made := by
  simp only [Canvas.overlay, bind, Except.bind, pure, Except.pure] at laid
  split at laid
  · cases laid
  · next built =>
    cases laid
    have size := Pixel.Grid.build_eq_ok.1 built
    exact made.of_same rfl rfl size.1 size.2.1

end Canvas

variable [Narrow κ χ]

namespace Store

variable {s : Store κ χ} {run : Nat → Runner κ χ}

theorem overlay_of_drawn {c c' : Canvas κ χ} {n : Nat} {origin : Point κ}
    (h : s.drawn run c n origin = .ok c') :
    ∃ source : Point κ → Except Language.Trap (Rgba χ), c.overlay source = .ok c' := by
  unfold drawn at h
  cases planned : Plan.forImage s c.limits n with
  | error fault => rw [planned] at h; cases h
  | ok plan =>
      rw [planned] at h
      let source : Point κ → Except Language.Trap (Rgba χ) := fun p =>
        plan.rootColour (run c.limits.instructions) ⟨p.x - origin.x, p.y - origin.y⟩
      have h : (c.overlay source).mapError Fault.ofTrap = .ok c' := h
      refine ⟨source, ?_⟩
      cases laid : c.overlay source with
      | error trap => rw [laid] at h; cases h
      | ok c'' => rw [laid] at h; cases h; rfl

omit [Scalar κ] [Scalar χ] [Narrow κ χ] in
theorem canvases_bind (k : Nat) (name : String) (v : Option Language.Value) :
    (s.bind k name v).store.canvases = s.canvases := by
  unfold bind
  split <;> rfl

/-- All canvases of the store are as they were made. -/
def Made (s : Store κ χ) : Prop := ∀ c ∈ s.canvases, c.Made

omit [Narrow κ χ] in
theorem Made.setCanvas (made : s.Made) {i : Nat} {c : Canvas κ χ} (new : c.Made) :
    (s.setCanvas i c).Made := by
  intro d there
  rcases Array.mem_or_eq_of_mem_setIfInBounds there with old | rfl
  · exact made d old
  · exact new

omit [Narrow κ χ] in
theorem Made.clear (made : s.Made) (i : Nat) (colour : Rgba χ) : (s.clear i colour).Made := by
  unfold Store.clear
  split
  · exact made
  · next c there =>
    exact made.setCanvas ((made c (Array.mem_of_getElem? there)).of_same rfl rfl rfl rfl)

theorem Made.composite (made : s.Made) (i n : Nat) (origin : Point κ) :
    (s.composite run i n origin).2.Made := by
  unfold Store.composite
  split
  · exact made
  · next c there =>
    split
    · exact made
    · next c' drawn =>
      obtain ⟨source, laid⟩ := overlay_of_drawn drawn
      exact made.setCanvas ((made c (Array.mem_of_getElem? there)).overlay laid)

end Store

/-- No operation gives a canvas another size. -/
theorem Operation.made_perform {run : Nat → Runner κ χ} {s : Store κ χ} (made : s.Made)
    (op : Operation κ χ) : (op.perform run s).2.Made := by
  cases op with
  | newKernel | compile | compileLines | subscribe | unsubscribe => exact made
  | bind k name v =>
    intro c there
    rw [perform, Store.canvases_bind] at there
    exact made c there
  | bindJson k name v =>
    intro c there
    simp only [perform, Store.bindJson] at there
    split at there
    · exact made c there
    · rw [Store.canvases_bind] at there
      exact made c there
  | newNode n =>
    cases n with
    | kernel k policy =>
        simp only [perform, Store.addKernelNode]
        split
        · exact made
        · next added =>
          split at added <;> cases added
          exact made
    | empty | buffer | transform | crop | canvas => exact made
  | newCanvas extent limits allocates =>
    simp only [perform]
    split
    · exact made
    · next c new =>
      intro d there
      rcases Array.mem_push.1 there with old | rfl
      · exact made d old
      · exact Canvas.made_of_new new
  | clear c colour => exact made.clear c colour
  | composite c n origin => exact made.composite c n origin

theorem Reached.made {run : Nat → Runner κ χ} {ops : List (Operation κ χ)} {s : Store κ χ}
    (h : Reached run ops s) : s.Made := by
  induction h with
  | new => exact fun c there => absurd there (Array.not_mem_empty c)
  | @step op ops s reached names ih => exact Operation.made_perform ih op

end PixelKernel.Graph
