import PixelKernel.Graph.Evaluate
import PixelKernel.Proofs.Geometry.Extents
import PixelKernel.Proofs.Compilation
import PixelKernel.Proofs.Graph.Acyclic

/-! # Extents of crops and of kernels

The extent of a stack of crops is what the rectangles and the extent below have in common, in
whatever order they are applied. The extent that a kernel takes from its inputs is the smallest
rectangle around them, in whatever order they are bound. Both are said of rounded corners; what is
wide or high enough to stand for the whole plane is the exception.
-/

namespace PixelKernel

/-! ## Crops -/

/-- What two rectangles of finite corners have in common. -/
structure Rect.Meets (a b : Rect Float) : Prop where
  /-- Read as extents, they are intersected point by point. -/
  shows : ∀ p, (a.intersect b).Shows p ↔ a.Shows p ∧ b.Shows p
  /-- So they are as rectangles, if one that stands for the whole plane covers it. -/
  contains : a.Sincere → b.Sincere → ∀ p, Rect.plane.contains p = true →
    ((a.intersect b).contains p = true ↔ a.contains p = true ∧ b.contains p = true)
  upright : a.Upright → b.Upright → (a.intersect b).Upright

theorem Rect.meets {a b : Rect Float} (ha : a.isFinite = true) (hb : b.isFinite = true) :
    a.Meets b where
  shows _ := shows_intersect ha hb
  contains sincere sincere' p inside := by
    rw [(sincere'.intersect ha hb).contains_iff_shows inside, shows_intersect ha hb,
      sincere.contains_iff_shows inside, sincere'.contains_iff_shows inside]
  upright := Upright.intersect ha hb

/-- A strip that is long enough stands for the whole plane and so crops nothing. -/
example : (⟨0, 0, 10, 10⟩ : Rect Float).intersect ⟨0, 0, 2e38, 1⟩ = ⟨0, 0, 10, 10⟩ := by
  decide +kernel

namespace Graph

namespace Store

variable {χ : Type} {s s' : Store Float χ} {base n n' : Nat} {rects rects' : List (Rect Float)}
  {inputs inputs' : List (Rect Float)} {dx dy : Float} {p : Point Float}

/-- The node is another one under crops. The outermost crop comes first. -/
inductive Cropped (s : Store Float χ) (base : Nat) : Nat → List (Rect Float) → Prop where
  | base : s.Cropped base base []
  | crop {n child rect rects} (node : s.node n = .crop child rect)
      (below : s.Cropped base child rects) : s.Cropped base n (rect :: rects)

/-- All the corners of what meets in a stack of crops are finite. -/
def Bounded (s : Store Float χ) (base : Nat) (rects : List (Rect Float)) : Prop :=
  (s.extent base).isFinite = true ∧ ∀ r ∈ rects, r.isFinite = true

theorem Wired.extent_crop (wired : s.Wired) {child : Nat} {rect : Rect Float}
    (node : s.node n = .crop child rect) : s.extent n = (s.extent child).intersect rect := by
  rw [wired.extent_eq, extentOf, node]

theorem Cropped.isFinite (wired : s.Wired) (h : s.Cropped base n rects)
    (bounded : s.Bounded base rects) : (s.extent n).isFinite = true := by
  obtain ⟨finite, corners⟩ := bounded
  induction h with
  | base => exact finite
  | crop node below ih =>
      obtain ⟨corner, corners⟩ := List.forall_mem_cons.1 corners
      rw [wired.extent_crop node]
      exact Rect.isFinite_intersect (ih corners) corner

theorem Cropped.shows_iff (wired : s.Wired) (h : s.Cropped base n rects)
    (bounded : s.Bounded base rects) :
    (s.extent n).Shows p ↔ (s.extent base).Shows p ∧ ∀ r ∈ rects, r.Shows p := by
  obtain ⟨finite, corners⟩ := bounded
  induction h with
  | base => simp
  | crop node below ih =>
      obtain ⟨corner, corners⟩ := List.forall_mem_cons.1 corners
      have inner := below.isFinite wired ⟨finite, corners⟩
      rw [wired.extent_crop node, Rect.shows_intersect inner corner, ih corners,
        List.forall_mem_cons, and_assoc]
      exact and_congr_right fun _ => and_comm

theorem Cropped.sincere (wired : s.Wired) (h : s.Cropped base n rects)
    (bounded : s.Bounded base rects) (sincere : (s.extent base).Sincere)
    (sincere' : ∀ r ∈ rects, r.Sincere) : (s.extent n).Sincere := by
  obtain ⟨finite, corners⟩ := bounded
  cases h with
  | base => exact sincere
  | crop node below =>
      obtain ⟨corner, corners⟩ := List.forall_mem_cons.1 corners
      rw [wired.extent_crop node]
      exact (List.forall_mem_cons.1 sincere').1.intersect
        (below.isFinite wired ⟨finite, corners⟩) corner

theorem Cropped.upright (wired : s.Wired) (h : s.Cropped base n rects)
    (bounded : s.Bounded base rects) (upright : (s.extent base).Upright)
    (upright' : ∀ r ∈ rects, r.Upright) : (s.extent n).Upright := by
  obtain ⟨finite, corners⟩ := bounded
  induction h with
  | base => exact upright
  | crop node below ih =>
      obtain ⟨corner, corners⟩ := List.forall_mem_cons.1 corners
      obtain ⟨first, rest⟩ := List.forall_mem_cons.1 upright'
      rw [wired.extent_crop node]
      exact (ih rest corners).intersect (below.isFinite wired ⟨finite, corners⟩) corner first

theorem Cropped.contains_iff (wired : s.Wired) (h : s.Cropped base n rects)
    (bounded : s.Bounded base rects) (sincere : (s.extent base).Sincere)
    (sincere' : ∀ r ∈ rects, r.Sincere) (inside : Rect.plane.contains p = true) :
    (s.extent n).contains p = true ↔
      (s.extent base).contains p = true ∧ ∀ r ∈ rects, r.contains p = true := by
  rw [(h.sincere wired bounded sincere sincere').contains_iff_shows inside,
    h.shows_iff wired bounded, sincere.contains_iff_shows inside]
  exact and_congr_right fun _ => forall₂_congr fun r there =>
    ((sincere' r there).contains_iff_shows inside).symm

/-- Extents of stacks of crops. -/
structure CropsMeet (s : Store Float χ) : Prop where
  /-- A stack of crops shows what the extent below and all rectangles show. -/
  shows : ∀ {base n rects}, s.Cropped base n rects → s.Bounded base rects → ∀ p,
    ((s.extent n).Shows p ↔ (s.extent base).Shows p ∧ ∀ r ∈ rects, r.Shows p)
  /-- It contains what they contain, if those that stand for the whole plane cover it. -/
  contains : ∀ {base n rects}, s.Cropped base n rects → s.Bounded base rects →
    (s.extent base).Sincere → (∀ r ∈ rects, r.Sincere) → ∀ p, Rect.plane.contains p = true →
      ((s.extent n).contains p = true ↔
        (s.extent base).contains p = true ∧ ∀ r ∈ rects, r.contains p = true)
  upright : ∀ {base n rects}, s.Cropped base n rects → s.Bounded base rects →
    (s.extent base).Upright → (∀ r ∈ rects, r.Upright) → (s.extent n).Upright
  /-- The order of the crops makes no difference. -/
  order : ∀ {base n n' rects rects'}, s.Cropped base n rects → s.Cropped base n' rects' →
    rects.Perm rects' → s.Bounded base rects → ∀ p,
      ((s.extent n).Shows p ↔ (s.extent n').Shows p) ∧
        ((s.extent base).Sincere → (∀ r ∈ rects, r.Sincere) → Rect.plane.contains p = true →
          ((s.extent n).contains p = true ↔ (s.extent n').contains p = true))

/-! ## Inputs of kernels -/

/-- The node is an image of a kernel that is seen where its inputs are, with margins. The extents
    of the inputs come in the order of the arguments. -/
def Follows (s : Store Float χ) (n : Nat) (inputs : List (Rect Float)) (dx dy : Float) : Prop :=
  ∃ k, s.node n = .kernel k (.standard none dx dy) ∧
    (s.kernel k).boundSamplers.map s.extent = inputs

theorem Follows.extent_eq (wired : s.Wired) (h : s.Follows n inputs dx dy) :
    s.extent n = (Rect.unite inputs).inset dx dy := by
  obtain ⟨k, node, rfl⟩ := h
  rw [wired.extent_eq, extentOf, node]
  dsimp only
  cases (s.kernel k).boundSamplers.map s.extent <;> rfl

/-- Extents that are taken from inputs, in one store or in two. -/
structure InputsSpan (s s' : Store Float χ) : Prop where
  unbound : ∀ {n dx dy}, s.Follows n [] dx dy → s.extent n = .plane
  infinite : ∀ {n inputs dx dy}, s.Follows n inputs dx dy → (∃ a ∈ inputs, a.isInfinite = true) →
    s.extent n = .plane
  /-- The extent is the smallest rectangle around the inputs that are not empty, with margins. -/
  spans : ∀ {n inputs dx dy}, s.Follows n inputs dx dy → (∀ a ∈ inputs, a.isInfinite = false) →
    (∃ a ∈ inputs, a.isEmpty = false) →
      ∃ r : Rect Float, r.Spans inputs ∧ (s.extent n).Alike (r.inset dx dy)
  /-- If all inputs are empty, the last one of them is taken. -/
  last : ∀ {n inputs r dx dy}, s.Follows n inputs dx dy → (∀ a ∈ inputs, a.isInfinite = false) →
    (∀ a ∈ inputs, a.isEmpty = true) → inputs.getLast? = some r → s.extent n = r.inset dx dy
  /-- The order of the arguments makes no difference, unless all inputs are empty and none stands
      for the whole plane. -/
  order : ∀ {n n' inputs inputs' dx dy}, s.Follows n inputs dx dy → s'.Follows n' inputs' dx dy →
    inputs.Perm inputs' → (∃ a ∈ inputs, a.isInfinite = true ∨ a.isEmpty = false) →
      (s.extent n).Alike (s'.extent n')
  /-- Beside an input that is not empty, empty inputs make no difference, unless they are wide or
      high enough to stand for the whole plane. -/
  empty : ∀ {n n' inputs inputs' dx dy}, s.Follows n inputs dx dy → s'.Follows n' inputs' dx dy →
    (inputs.filter (!·.isEmpty)).Perm (inputs'.filter (!·.isEmpty)) →
      (∃ a ∈ inputs, a.isEmpty = false) →
        (∀ a ∈ inputs ++ inputs', a.isEmpty = true → a.isInfinite = false) →
          (s.extent n).Alike (s'.extent n')
  /-- Margins that are not taken away are around each input that is not empty. -/
  encloses : ∀ {n inputs a dx dy}, s.Follows n inputs dx dy → s.extent n ≠ .plane → a ∈ inputs →
    a.isEmpty = false → Scalar.atMost dx Scalar.zero = true → Scalar.atMost dy Scalar.zero = true →
      (s.extent n).Encloses (a.shrunk dx dy)

theorem Wired.inputsSpan (wired : s.Wired) (wired' : s'.Wired) : s.InputsSpan s' where
  unbound follows := by
    rw [follows.extent_eq wired]
    exact Rect.inset_infinite Rect.isInfinite_plane_float
  infinite follows some_ := by
    rw [follows.extent_eq wired]
    exact Rect.united_infinite some_
  spans follows finite solid := by
    obtain ⟨r, spans⟩ := Rect.exists_spans finite solid
    rw [follows.extent_eq wired]
    exact ⟨r, spans, Rect.united_spans finite spans _ _⟩
  last follows finite empty last := by
    rw [follows.extent_eq wired, Rect.united_empty finite empty last]
  order follows follows' same some_ := by
    rw [follows.extent_eq wired, follows'.extent_eq wired']
    exact Rect.united_alike (fun _ _ => same.mem_iff) (by simp only [same.mem_iff]) some_
  empty {n n' inputs inputs' dx dy} follows follows' same solid narrow := by
    rw [follows.extent_eq wired, follows'.extent_eq wired']
    have filled (r : Rect Float) (solid : r.isEmpty = false) : r ∈ inputs ↔ r ∈ inputs' := by
      have := same.mem_iff (a := r)
      simpa only [List.mem_filter, solid, Bool.not_false, and_true] using this
    obtain ⟨a, there, solid⟩ := solid
    refine Rect.united_alike filled ⟨?_, ?_⟩ ⟨a, there, .inr solid⟩
    · rintro ⟨b, there, infinite⟩
      cases empty : b.isEmpty
      · exact ⟨b, (filled b empty).1 there, infinite⟩
      · rw [narrow b (List.mem_append_left _ there) empty] at infinite
        cases infinite
    · rintro ⟨b, there, infinite⟩
      cases empty : b.isEmpty
      · exact ⟨b, (filled b empty).2 there, infinite⟩
      · rw [narrow b (List.mem_append_right _ there) empty] at infinite
        cases infinite
  encloses follows finite there solid across down := by
    rw [follows.extent_eq wired] at finite ⊢
    exact Rect.united_encloses finite there solid across down

end Store

section

variable {χ : Type} [Scalar χ] [Narrow Float χ] {run : Nat → Runner Float χ}
  {ops : List (Operation Float χ)} {s s' : Store Float χ}

/-- Extents are intersected point by point, two of them as well as those of a stack of crops. -/
theorem Reached.crops_meet (h : Reached run ops s) : s.CropsMeet ∧
    ∀ a b : Rect Float, a.isFinite = true → b.isFinite = true → a.Meets b := by
  have wired : s.Wired := .of_reached h
  refine ⟨⟨fun stack bounded _ => stack.shows_iff wired bounded,
    fun stack bounded sincere sincere' _ inside =>
      stack.contains_iff wired bounded sincere sincere' inside,
    fun stack bounded => stack.upright wired bounded, ?_⟩, fun _ _ => Rect.meets⟩
  intro base n n' rects rects' stack stack' same bounded p
  have bounded' : s.Bounded base rects' :=
    ⟨bounded.1, fun r there => bounded.2 r (same.mem_iff.2 there)⟩
  refine ⟨?_, fun sincere sincere' inside => ?_⟩
  · rw [stack.shows_iff wired bounded, stack'.shows_iff wired bounded']
    simp only [same.mem_iff]
  · rw [stack.contains_iff wired bounded sincere sincere' inside,
      stack'.contains_iff wired bounded' sincere
        (fun r there => sincere' r (same.mem_iff.2 there)) inside]
    simp only [same.mem_iff]

/-- A transparent pixel that reports the extent. -/
def pixelOver (extent : Rect Float) : Node Float Float32 :=
  .buffer ⟨.filled 1 1 .transparent, some extent, false⟩

/-- A square that is cropped by two rectangles, in both orders. -/
def cropsCrossed : Store Float Float32 where
  kernels := #[]
  nodes := #[pixelOver ⟨0, 0, 10, 10⟩, .crop 0 ⟨5, -5, 15, 5⟩, .crop 1 ⟨0, 2, 7, 20⟩,
    .crop 0 ⟨0, 2, 7, 20⟩, .crop 3 ⟨5, -5, 15, 5⟩]
  canvases := #[]
  subscriptions := 0

theorem reached_cropsCrossed : Reached runForColour
    [.newNode (.crop 3 ⟨5, -5, 15, 5⟩), .newNode (.crop 0 ⟨0, 2, 7, 20⟩),
      .newNode (.crop 1 ⟨0, 2, 7, 20⟩), .newNode (.crop 0 ⟨5, -5, 15, 5⟩),
      .newNode (pixelOver ⟨0, 0, 10, 10⟩)] cropsCrossed := by
  have pixel : Reached runForColour [.newNode (pixelOver ⟨0, 0, 10, 10⟩)]
      { cropsCrossed with nodes := #[pixelOver ⟨0, 0, 10, 10⟩] } :=
    .step .new (show (pixelOver ⟨0, 0, 10, 10⟩).Refers .new from trivial)
  have crop (nodes : Array (Node Float Float32)) (child : Nat) (rect : Rect Float)
      (there : child < nodes.size) : ∀ {ops}, Reached runForColour ops
      { cropsCrossed with nodes } → Reached runForColour (.newNode (.crop child rect) :: ops)
        { cropsCrossed with nodes := nodes.push (.crop child rect) } :=
    fun before => .step before there
  exact crop _ _ _ (by decide) (crop _ _ _ (by decide) (crop _ _ _ (by decide)
    (crop _ _ _ (by decide) pixel)))

theorem cropsCrossed_meet : cropsCrossed.extent 2 = ⟨5, 2, 7, 5⟩ ∧
    ∀ p, Rect.plane.contains p = true →
      ((cropsCrossed.extent 2).contains p = true ↔ (cropsCrossed.extent 4).contains p = true) := by
  obtain ⟨crops, -⟩ := reached_cropsCrossed.crops_meet
  have stack : cropsCrossed.Cropped 0 2 [⟨0, 2, 7, 20⟩, ⟨5, -5, 15, 5⟩] :=
    .crop rfl (.crop rfl .base)
  have stack' : cropsCrossed.Cropped 0 4 [⟨5, -5, 15, 5⟩, ⟨0, 2, 7, 20⟩] :=
    .crop rfl (.crop rfl .base)
  have corners : ∀ r ∈ [cropsCrossed.extent 0, ⟨0, 2, 7, 20⟩, ⟨5, -5, 15, 5⟩],
      r.isFinite = true ∧ r.isInfinite = false := by decide +kernel
  obtain ⟨base, rects⟩ := List.forall_mem_cons.1 corners
  have sincere {r : Rect Float} (h : r.isFinite = true ∧ r.isInfinite = false) : r.Sincere :=
    fun infinite => absurd infinite (Bool.eq_false_iff.1 h.2)
  refine ⟨by decide +kernel, fun p inside => ?_⟩
  have order := crops.order stack stack' (.swap _ _ _) ⟨base.1, fun r there => (rects r there).1⟩ p
  exact order.2 (sincere base) (fun r there => sincere (rects r there)) inside

/-- An extent that is taken from inputs depends on those that are not empty, in whatever order they
    are bound. -/
theorem Reached.inputs_span {run' : Nat → Runner Float χ} {ops' : List (Operation Float χ)}
    (h : Reached run ops s) (h' : Reached run' ops' s') : s.InputsSpan s' :=
  (Store.Wired.of_reached h).inputsSpan (.of_reached h')

/-- A kernel that adds two images. -/
def sumSource : String := "kernel vec4 sum(sampler a, sampler b) \x7b
  return sample(a, destCoord()) + sample(b, destCoord()); \x7d"

def sumProgram : Language.Program where
  functions := #[⟨"sum", [.sampler, .sampler], .vec4, #[.sampler, .sampler],
    #[.load 0, .builtin .destCoord 0, .builtin .sample 2, .load 1, .builtin .destCoord 0,
      .builtin .sample 2, .arith .add, .ret, .missingReturn]⟩]
  consts := #[]
  entry := 0
  target := .normal
  arguments := [⟨"a", .sampler, false⟩, ⟨"b", .sampler, false⟩]

theorem compile_sumSource : Language.compile sumSource = .ok sumProgram := by
  have made : (Language.compile sumSource).toOption = some sumProgram := by decide +kernel
  cases h : Language.compile sumSource with
  | error d => rw [h] at made; cases made
  | ok p => rw [h] at made; cases made; rfl

/-- The adding kernel and nodes that may read it; what is bound is given. -/
def summed (nodes : Array (Node Float Float32)) (bindings : List (Option Language.Value)) :
    Store Float Float32 where
  kernels := #[⟨sumSource, some sumProgram, some [], bindings, []⟩]
  nodes := nodes
  canvases := #[]
  subscriptions := 0

theorem reached_summed : Reached runForColour [.compile 0 sumSource, .newKernel]
    (summed #[] [none, none]) := by
  have empty : Reached runForColour [.newKernel] ⟨#[.new], #[], #[], 0⟩ := .step .new trivial
  have compiled : Reached runForColour [.compile 0 sumSource, .newKernel]
      ⟨#[Kernel.new.compile sumSource], #[], #[], 0⟩ :=
    .step empty (show 0 < (#[Kernel.new] : Array Kernel).size by decide)
  have ready : Kernel.new.compile sumSource =
      ⟨sumSource, some sumProgram, some [], [none, none], []⟩ := by
    simp only [Kernel.compile, compile_sumSource]
    rfl
  rw [ready] at compiled
  exact compiled

/-- Nodes can be added that refer to what is there. -/
theorem reached_summed_push {nodes : Array (Node Float Float32)} (n : Node Float Float32)
    {bindings : List (Option Language.Value)}
    (before : ∃ ops, Reached runForColour ops (summed nodes bindings))
    (refers : n.Refers (summed nodes bindings)) :
    ∃ ops, Reached runForColour ops (summed (nodes.push n) bindings) := by
  obtain ⟨ops, before⟩ := before
  have names : (Operation.newNode n).Names (summed nodes bindings) := refers
  have added := before.step names
  cases n with
  | kernel k policy =>
      obtain rfl : k = 0 := Nat.lt_one_iff.1 refers
      exact ⟨_, added⟩
  | empty | buffer | transform | crop | canvas => exact ⟨_, added⟩

/-- Nodes can be bound, whatever that makes of the bindings. -/
theorem reached_summed_bind {nodes : Array (Node Float Float32)} {n : Nat} (name : String)
    {bindings bindings' : List (Option Language.Value)} (there : n < nodes.size)
    (binds : ((summed nodes bindings).bind 0 name (some (.sampler (some n)))).store =
      summed nodes bindings')
    (before : ∃ ops, Reached runForColour ops (summed nodes bindings)) :
    ∃ ops, Reached runForColour ops (summed nodes bindings') := by
  obtain ⟨ops, before⟩ := before
  refine ⟨.bind 0 name (some (.sampler (some n))) :: ops, binds ▸ .step before ⟨Nat.one_pos, ?_⟩⟩
  rintro _ ⟨⟩
  exact ⟨n, rfl, there⟩

/-- Two squares, and their sum seen four units around them; what is bound is given. -/
def squares (bindings : List (Option Language.Value)) : Store Float Float32 :=
  summed #[pixelOver ⟨0, 0, 10, 10⟩, pixelOver ⟨20, 5, 25, 15⟩,
    .kernel 0 (.standard none (-4) (-4))] bindings

theorem reached_squares_bound {n m : Nat} (first : n < 2) (second : m < 2) : ∃ ops,
    Reached runForColour ops (squares [some (.sampler (some n)), some (.sampler (some m))]) := by
  have pixels : ∃ ops, Reached runForColour ops
      (summed #[pixelOver ⟨0, 0, 10, 10⟩, pixelOver ⟨20, 5, 25, 15⟩] [none, none]) :=
    reached_summed_push (pixelOver _)
      (reached_summed_push (pixelOver _) ⟨_, reached_summed⟩ trivial) trivial
  have reached : ∃ ops, Reached runForColour ops (squares [none, none]) :=
    reached_summed_push (.kernel 0 _) pixels Nat.one_pos
  have half : ∃ ops, Reached runForColour ops (squares [some (.sampler (some n)), none]) :=
    reached_summed_bind "a" (first.trans (show 2 < 3 by decide))
      (by interval_cases n <;> rfl) reached
  exact reached_summed_bind "b" (second.trans (show 2 < 3 by decide))
    (by interval_cases m <;> rfl) half

theorem squares_span :
    (squares [some (.sampler (some 0)), some (.sampler (some 1))]).extent 2 = ⟨-4, -4, 29, 19⟩ ∧
      ((squares [some (.sampler (some 0)), some (.sampler (some 1))]).extent 2).Alike
        ((squares [some (.sampler (some 1)), some (.sampler (some 0))]).extent 2) := by
  obtain ⟨ops, reached⟩ := reached_squares_bound (n := 0) (m := 1) (by decide) (by decide)
  obtain ⟨ops', reached'⟩ := reached_squares_bound (n := 1) (m := 0) (by decide) (by decide)
  have first : (squares [some (.sampler (some 0)), some (.sampler (some 1))]).Follows 2
      [⟨0, 0, 10, 10⟩, ⟨20, 5, 25, 15⟩] (-4) (-4) := ⟨0, rfl, by decide +kernel⟩
  have second : (squares [some (.sampler (some 1)), some (.sampler (some 0))]).Follows 2
      [⟨20, 5, 25, 15⟩, ⟨0, 0, 10, 10⟩] (-4) (-4) := ⟨0, rfl, by decide +kernel⟩
  exact ⟨by decide +kernel, (reached.inputs_span reached').order first second (.swap _ _ _)
    ⟨_, List.mem_cons_self, .inr (by decide +kernel)⟩⟩

end

end Graph
end PixelKernel
