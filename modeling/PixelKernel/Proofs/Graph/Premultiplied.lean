import PixelKernel.Proofs.Pixel.Premultiplied

/-! # Canvases of premultiplied colours

In exact arithmetic a canvas of valid colours stays one whatever is done to it, as long as it is
cleared with valid colours and the images that are laid over it show valid colours when they are
read; and no image takes alpha away. Images do show valid colours if the pictures below them and the
kernels between are valid, so it is enough to look at what is put into a graph.
-/

namespace PixelKernel.Graph

open Pixel (Grid)
open PixelKernel.Language (Argument Program Value)

/-! ## What is drawn -/

/-- The canvas has at least the alpha that it had, pixel by pixel. -/
structure Canvas.Raised (c c' : Canvas Rat Rat) : Prop where
  width : c'.grid.width = c.grid.width
  height : c'.grid.height = c.grid.height
  alpha : ∀ x y : Nat, x < c.grid.width → y < c.grid.height →
    (c.grid.texel x y).a ≤ (c'.grid.texel x y).a

namespace Store

/-- All pixels of all canvases are valid. -/
def Painted (s : Store Rat Rat) : Prop := ∀ c ∈ s.canvases, c.grid.Premultiplied

/-- No pixel of a canvas has less alpha than it had. -/
def Raised (s s' : Store Rat Rat) : Prop := ∀ (i : Nat) (c : Canvas Rat Rat),
  s.canvases[i]? = some c → ∃ c', s'.canvases[i]? = some c' ∧ c.Raised c'

/-- Wherever the image can be read it has a valid colour. -/
def Shows (s : Store Rat Rat) (run : Runner Rat Rat) (limits : Limits) (n : Nat) : Prop :=
  ∀ plan, Plan.forImage s limits n = .ok plan →
    ∀ p c, plan.rootColour run p = .ok c → c.Premultiplied

/-- The operation clears with a valid colour, or it lays down an image of valid colours, or it does
    not draw. -/
def Paint (s : Store Rat Rat) (run : Nat → Runner Rat Rat) : Operation Rat Rat → Prop
  | .clear _ colour => colour.Premultiplied
  | .composite i n _ => ∀ c, s.canvases[i]? = some c →
    s.Shows (run c.limits.instructions) c.limits n
  | _ => True

/-- The store that operations leave, performed one after the other. -/
def performed (s : Store Rat Rat) (run : Nat → Runner Rat Rat) (ops : List (Operation Rat Rat)) :
    Store Rat Rat :=
  ops.foldl (fun s op => (op.perform run s).2) s

/-- Each operation paints in the store that those before it leave. -/
def Paints (s : Store Rat Rat) (run : Nat → Runner Rat Rat) : List (Operation Rat Rat) → Prop
  | [] => True
  | op :: ops => s.Paint run op ∧ Paints (op.perform run s).2 run ops

/-- Canvases are valid after each operation, and no image that is laid down takes alpha away. -/
structure StaysPainted (s : Store Rat Rat) (run : Nat → Runner Rat Rat)
    (ops : List (Operation Rat Rat)) : Prop where
  valid : ∀ before after, ops = before ++ after → (s.performed run before).Painted
  raised : ∀ before i n origin after, ops = before ++ .composite i n origin :: after →
    (s.performed run before).Raised
      ((Operation.composite i n origin).perform run (s.performed run before)).2

end Store

/-! ## One operation -/

namespace Canvas

variable {ε : Type} {c c' : Canvas Rat Rat} {source : Point Rat → Except ε (Rgba Rat)}

/-- Valid colours that are laid over valid pixels give valid pixels with no less alpha. -/
theorem overlay_premultiplied (laid : c.overlay source = .ok c')
    (colours : ∀ p v, source p = .ok v → v.Premultiplied) (valid : c.grid.Premultiplied) :
    c'.grid.Premultiplied ∧ c.Raised c' := by
  simp only [overlay, bind, Except.bind, pure, Except.pure] at laid
  split at laid
  · cases laid
  next grid built =>
  cases laid
  obtain ⟨width, height, texels⟩ := Grid.build_eq_ok.1 built
  have blends (x y : Nat) (column : x < c.grid.width) (row : y < c.grid.height) :
      ∃ src : Rgba Rat, src.Premultiplied ∧ grid.texel x y = src.onto (c.grid.texel x y) := by
    have texel := texels x column y row
    split at texel
    · cases texel
    · next src found => exact ⟨src, colours _ _ found, (Except.ok.inj texel).symm⟩
  refine ⟨Grid.premultiplied_of_texels fun x column y row => ?_,
    width, height, fun x y column row => ?_⟩
  · obtain ⟨src, valid_src, texel⟩ := blends x y (width ▸ column) (height ▸ row)
    rw [texel]
    exact valid_src.onto (valid.texel x y)
  · obtain ⟨src, valid_src, texel⟩ := blends x y column row
    rw [texel]
    exact valid_src.le_onto (valid.texel x y)

theorem Raised.refl (c : Canvas Rat Rat) : c.Raised c := ⟨rfl, rfl, fun _ _ _ _ => le_rfl⟩

end Canvas

namespace Store

variable {s : Store Rat Rat} {run : Nat → Runner Rat Rat} {ops : List (Operation Rat Rat)}

theorem Raised.refl (s : Store Rat Rat) : s.Raised s := fun _ c there => ⟨c, there, .refl c⟩

theorem Painted.setCanvas (painted : s.Painted) {i : Nat} {c : Canvas Rat Rat}
    (valid : c.grid.Premultiplied) : (s.setCanvas i c).Painted := by
  intro d there
  rcases Array.mem_or_eq_of_mem_setIfInBounds there with old | rfl
  · exact painted d old
  · exact valid

theorem raised_setCanvas {i : Nat} {c c' : Canvas Rat Rat} (there : s.canvases[i]? = some c)
    (raised : c.Raised c') : s.Raised (s.setCanvas i c') := by
  intro j d found
  have inside := (Array.getElem?_eq_some_iff.1 there).1
  by_cases same : i = j
  · subst same
    rw [there] at found
    cases found
    exact ⟨c', Array.getElem?_setIfInBounds_self_of_lt inside, raised⟩
  · exact ⟨d, (Array.getElem?_setIfInBounds_ne same).trans found, .refl d⟩

/-- What an image that is drawn leaves of a canvas. -/
theorem drawn_premultiplied {run : Nat → Runner Rat Rat} {c c' : Canvas Rat Rat} {n : Nat}
    {origin : Point Rat} (drawn : s.drawn run c n origin = .ok c')
    (shown : s.Shows (run c.limits.instructions) c.limits n) (valid : c.grid.Premultiplied) :
    c'.grid.Premultiplied ∧ c.Raised c' := by
  unfold Store.drawn at drawn
  cases planned : Plan.forImage s c.limits n with
  | error fault => rw [planned] at drawn; cases drawn
  | ok plan =>
      rw [planned] at drawn
      have laid : (c.overlay fun p => plan.rootColour (run c.limits.instructions)
          ⟨p.x - origin.x, p.y - origin.y⟩).mapError Fault.ofTrap = .ok c' := drawn
      cases overlaid : c.overlay fun p => plan.rootColour (run c.limits.instructions)
          ⟨p.x - origin.x, p.y - origin.y⟩ with
      | error trap => rw [overlaid] at laid; cases laid
      | ok c'' =>
          rw [overlaid] at laid
          cases laid
          exact Canvas.overlay_premultiplied overlaid (fun p => shown plan planned _) valid

theorem Painted.composite (painted : s.Painted) {i n : Nat} {origin : Point Rat}
    (paint : s.Paint run (.composite i n origin)) :
    (s.composite run i n origin).2.Painted ∧ s.Raised (s.composite run i n origin).2 := by
  unfold Store.composite
  split
  · exact ⟨painted, .refl s⟩
  next c there =>
  split
  · exact ⟨painted, .refl s⟩
  next c' drawn =>
  obtain ⟨valid, raised⟩ :=
    drawn_premultiplied drawn (paint c there) (painted c (Array.mem_of_getElem? there))
  exact ⟨painted.setCanvas valid, raised_setCanvas there raised⟩

theorem Painted.clear (painted : s.Painted) (i : Nat) {colour : Rgba Rat}
    (valid : colour.Premultiplied) : (s.clear i colour).Painted := by
  unfold Store.clear
  split
  · exact painted
  · exact painted.setCanvas (Grid.premultiplied_fill valid)

/-- A new canvas is transparent. -/
theorem premultiplied_new {extent : Rect Rat} {limits : Limits} {allocates : Nat → Bool}
    {c : Canvas Rat Rat} (new : Canvas.new extent limits allocates = .ok c) :
    c.grid.Premultiplied := by
  simp only [Canvas.new, pure, Except.pure, throw, throwThe, MonadExceptOf.throw] at new
  repeat' split at new
  all_goals cases new
  next width height _ _ _ _ =>
    exact Grid.premultiplied_fill (g := .filled width height .transparent)
      Rgba.premultiplied_transparent

theorem Painted.perform (painted : s.Painted) {op : Operation Rat Rat} (paint : s.Paint run op) :
    (op.perform run s).2.Painted := by
  cases op with
  | newKernel | compile | compileLines | subscribe | unsubscribe => exact painted
  | bind k name v =>
    intro c there
    rw [Operation.perform, canvases_bind] at there
    exact painted c there
  | bindJson k name v =>
    intro c there
    simp only [Operation.perform, bindJson] at there
    split at there
    · exact painted c there
    · rw [canvases_bind] at there
      exact painted c there
  | newNode n =>
    cases n with
    | kernel k policy =>
        simp only [Operation.perform, addKernelNode]
        split
        · exact painted
        · next added =>
          split at added <;> cases added
          exact painted
    | empty | buffer | transform | crop | canvas => exact painted
  | newCanvas extent limits allocates =>
    simp only [Operation.perform]
    split
    · exact painted
    · next c new =>
      intro d there
      rcases Array.mem_push.1 there with old | rfl
      · exact painted d old
      · exact premultiplied_new new
  | clear c colour => exact painted.clear c paint
  | composite c n origin => exact (painted.composite paint).1

/-! ## All operations -/

/-- What has been painted before is painted on. -/
theorem Painted.performed (painted : s.Painted) {before after : List (Operation Rat Rat)}
    (paints : s.Paints run (before ++ after)) :
    (s.performed run before).Painted ∧ (s.performed run before).Paints run after := by
  induction before generalizing s with
  | nil => exact ⟨painted, paints⟩
  | cons op before ih => exact ih (painted.perform paints.1) paints.2

theorem Painted.stays (painted : s.Painted) (paints : s.Paints run ops) :
    s.StaysPainted run ops where
  valid before after split := (painted.performed (split ▸ paints)).1
  raised before i n origin after split := by
    obtain ⟨now, rest⟩ := painted.performed (split ▸ paints)
    exact (now.composite rest.1).2

end Store

/-! ## What images show -/

/-- A kernel that reads valid colours gives a valid one. -/
def RunsPremultiplied (run : Runner Rat Rat) : Prop := ∀ program args (access : Access Rat Rat),
  (∀ i q c, access.sample i q = .ok c → c.Premultiplied) →
    ∀ p c, run program args access p = .ok c → c.Premultiplied

/-- The picture of a plan's node, if it has one, is valid. -/
def Plan.Op.Premultiplied : Plan.Op Rat Rat → Prop
  | .pixels grid _ _ => grid.Premultiplied
  | .empty | .kernel .. | .transform .. | .crop .. => True

/-- All nodes of a plan see valid colours. -/
theorem Plan.colour_premultiplied {plan : Plan Rat Rat} {run : Runner Rat Rat}
    (valid : ∀ node ∈ plan.nodes, node.op.Premultiplied) (keeps : RunsPremultiplied run) (i : Nat)
    (p : Point Rat) (c : Rgba Rat) (read : plan.colour run i p = .ok c) : c.Premultiplied := by
  induction i using Nat.strongRecOn generalizing p c with
  | _ i ih =>
    have earlier (j : Nat) (q : Point Rat) (d : Rgba Rat)
        (h : (if _ : j < i then plan.colour run j q else .ok .transparent) = .ok d) :
        d.Premultiplied := by
      split at h
      · next before => exact ih j before q d h
      · cases h
        exact Rgba.premultiplied_transparent
    rw [Plan.colour] at read
    split at read
    · cases read
      exact Rgba.premultiplied_transparent
    next node found =>
    have here := valid node (Array.mem_of_getElem? found)
    split at read
    · cases read
      exact Rgba.premultiplied_transparent
    · next grid origin interpolate op =>
      rw [op] at here
      cases read
      exact Grid.Premultiplied.sample here _ _
    · exact keeps _ _ _ earlier p c read
    · exact earlier _ _ c read
    · split at read
      · exact earlier _ _ c read
      · cases read
        exact Rgba.premultiplied_transparent

namespace Planner

variable {s : Store Rat Rat} {p : Planner Rat Rat}

/-- All pictures planned so far are valid. -/
def Premultiplied (p : Planner Rat Rat) : Prop := ∀ node ∈ p.nodes, node.op.Premultiplied

/-- The construction adds valid pictures only. -/
def Build.Sound {α : Type} (m : Build Rat Rat α) : Prop :=
  ∀ p : Planner Rat Rat, p.Premultiplied → m.Ends p (fun _ p' => p'.Premultiplied) fun _ => True

theorem sound_add (op : Plan.Op Rat Rat) (valid : op.Premultiplied) (toWorld : Affine Rat)
    (extent : Rect Rat) : Build.Sound (add op toWorld extent) := by
  intro p before
  refine .add fun node there => ?_
  rcases Array.mem_push.1 there with old | rfl
  · exact before node old
  · exact valid

theorem sound_arguments {visit : Nat → Build Rat Rat Nat} (visits : ∀ n, Build.Sound (visit n))
    (kernel : String) (slots : List (Argument × Option Value)) :
    Build.Sound (arguments visit kernel slots) := by
  induction slots with
  | nil => exact fun p before => .pure before
  | cons slot rest ih =>
      intro p before
      have first : (argument visit kernel slot).Ends p (fun _ p' => p'.Premultiplied)
          fun _ => True := by
        unfold argument
        split
        · split
          · exact .pure before
          · exact .fail trivial
        · exact .boundSampler ((visits _ p before).mono (fun i p' after =>
            ⟨fun _ => after, fun _ => trivial⟩) fun _ _ => trivial)
        · exact .pure before
      rw [arguments_cons]
      exact .andThen first fun v p' between =>
        .andThen (ih p' between) fun vs p'' after => .pure after

theorem sound_kernelNode {visit : Nat → Build Rat Rat Nat} (visits : ∀ n, Build.Sound (visit n))
    (k : Nat) (target : Language.Target) (extent : Rect Rat) :
    Build.Sound (kernelNode s visit k target extent) := by
  intro p before
  refine .read (.check (fun _ => trivial) fun _ => ?_)
  split
  · exact .fail trivial
  · refine .check (fun _ => trivial) fun _ => .change ?_
    exact .andThen (sound_arguments visits _ _ _ before) fun args p' after =>
      .change (sound_add (.kernel _ args) trivial _ _ _ after)

theorem sound_fresh {visit : Nat → Build Rat Rat Nat} (visits : ∀ n, Build.Sound (visit n))
    (painted : s.Painted) (buffers : ∀ n b, s.node n = .buffer b → b.grid.Premultiplied) (n : Nat) :
    Build.Sound (fresh s visit n) := by
  intro p before
  unfold fresh
  split
  · exact sound_add .empty trivial _ _ p before
  · next b node => exact sound_add (.pixels ..) (buffers n b node) _ _ p before
  · split
    · exact sound_add .empty trivial _ _ p before
    · next c there =>
      exact sound_add (.pixels ..) (painted c (Array.mem_of_getElem? there)) _ _ p before
  · exact sound_kernelNode visits _ _ _ p before
  · refine .andThen (visits _ p before) fun i p' after => ?_
    split
    · exact .fail trivial
    · exact .read (sound_add (.transform ..) trivial _ _ p' after)
  · exact .andThen (visits _ p before) fun i p' after =>
      .read (sound_add (.crop ..) trivial _ _ p' after)

theorem sound_visit (painted : s.Painted)
    (buffers : ∀ n b, s.node n = .buffer b → b.grid.Premultiplied) (limit room n : Nat) :
    Build.Sound (visit s limit room n) := by
  induction room generalizing n with
  | zero => exact fun p before => .fail trivial
  | succ room ih =>
      intro p before
      refine .read ?_
      split
      · exact .pure before
      · exact .andThen (sound_fresh ih painted buffers n p before) fun i p' after =>
          .change (.pure after)

end Planner

namespace Store

variable {s : Store Rat Rat} {run : Nat → Runner Rat Rat} {ops : List (Operation Rat Rat)}

/-- All pictures that do not change are valid. -/
def Pictured (s : Store Rat Rat) : Prop := ∀ n b, s.node n = .buffer b → b.grid.Premultiplied

/-- Images of valid pictures show valid colours. -/
theorem Painted.shows_premultiplied (painted : s.Painted) (pictured : s.Pictured) {run : Runner Rat Rat}
    (keeps : RunsPremultiplied run) (limits : Limits) (n : Nat) : s.Shows run limits n := by
  intro plan planned p c read
  have sound := Planner.sound_visit painted pictured limits.depth (limits.depth + 1) n ⟨#[], [], []⟩
    fun node none_ => absurd none_ (Array.not_mem_empty node)
  have built := build_eq sound
  rw [show Plan.build _ = .ok plan from planned] at built
  obtain ⟨p', nodes, valid⟩ := built
  exact Plan.colour_premultiplied (nodes ▸ valid) keeps _ p c read

theorem Pictured.of_nodes {s' : Store Rat Rat} (pictured : s.Pictured) (same : s'.nodes = s.nodes) :
    s'.Pictured := by
  intro n b node
  rw [Store.node, same] at node
  exact pictured n b node

theorem Pictured.addNode (pictured : s.Pictured) {n : Node Rat Rat}
    (valid : ∀ b, n = .buffer b → b.grid.Premultiplied) : (s.addNode n).2.Pictured := by
  intro m b node
  rw [node_addNode] at node
  split at node
  · exact valid b node
  · exact pictured m b node

/-- What the operation brings is valid: the picture that becomes a node, and the colour that a
    canvas is cleared with. -/
def Brings : Operation Rat Rat → Prop
  | .clear _ colour => colour.Premultiplied
  | .newNode (.buffer b) => b.grid.Premultiplied
  | _ => True

theorem Pictured.perform (pictured : s.Pictured) {op : Operation Rat Rat} (brings : Brings op) :
    (op.perform run s).2.Pictured := by
  cases op with
  | newKernel | compile | compileLines | subscribe | unsubscribe => exact pictured.of_nodes rfl
  | bind k name v =>
      refine pictured.of_nodes ?_
      simp only [Operation.perform, Store.bind]
      split <;> rfl
  | bindJson k name v =>
      refine pictured.of_nodes ?_
      simp only [Operation.perform, bindJson, Store.bind]
      repeat' split
      all_goals rfl
  | newNode n =>
      cases n with
      | buffer b => exact pictured.addNode fun _ same => by cases same; exact brings
      | kernel k policy =>
          simp only [Operation.perform, addKernelNode]
          split
          · exact pictured
          · next added =>
            split at added <;> cases added
            exact pictured.addNode fun _ same => by cases same
      | empty | transform | crop | canvas =>
          exact pictured.addNode fun _ same => by cases same
  | newCanvas extent limits allocates =>
      refine pictured.of_nodes ?_
      simp only [Operation.perform]
      split <;> rfl
  | clear i colour =>
      refine pictured.of_nodes ?_
      simp only [Operation.perform, Store.clear]
      split <;> rfl
  | composite i n origin =>
      refine pictured.of_nodes ?_
      simp only [Operation.perform, Store.composite]
      repeat' split
      all_goals rfl

/-- Where all that operations bring is valid, whatever they lay over canvases is, too. -/
theorem Painted.paints (painted : s.Painted) (pictured : s.Pictured)
    (keeps : ∀ budget, RunsPremultiplied (run budget)) (brings : ∀ op ∈ ops, Brings op) :
    s.Paints run ops := by
  induction ops generalizing s with
  | nil => trivial
  | cons op ops ih =>
      obtain ⟨here, later⟩ := List.forall_mem_cons.1 brings
      have paint : s.Paint run op := by
        cases op with
        | clear i colour => exact here
        | composite i n origin =>
          exact fun c there => painted.shows_premultiplied pictured (keeps _) c.limits n
        | newKernel | compile | compileLines | bind | bindJson | subscribe | unsubscribe | newNode
        | newCanvas => trivial
      exact ⟨paint, ih (painted.perform paint) (pictured.perform here) later⟩

end Store

/-- Smooth reading of valid texels gives valid colours among those around the point, and canvases of
    valid colours stay valid and keep their alpha under all that is painted on them. -/
theorem premultiplied_throughout {g : Grid Rat} (valid : g.Premultiplied) (fits : g.Fits)
    {run : Nat → Runner Rat Rat} {s : Store Rat Rat} (painted : s.Painted)
    {ops : List (Operation Rat Rat)} (paints : s.Paints run ops) :
    g.Smooth ∧ s.StaysPainted run ops :=
  ⟨valid.smooth fits, painted.stays paints⟩

/-- A pixel of half transparent red that is read smoothly. -/
def redPixel : Buffer Rat Rat := ⟨.filled 1 1 ⟨1 / 2, 0, 0, 1 / 2⟩, none, true⟩

/-- The pixel, and a canvas that is twice as wide with its image. -/
def redCanvas : Store Rat Rat where
  kernels := #[]
  nodes := #[.buffer redPixel, .canvas 0]
  canvases := #[⟨⟨0, 0, 2, 1⟩, .standard, .filled 2 1 .transparent⟩]
  subscriptions := 0

/-- The canvas is cleared with opaque blue, the pixel is laid over it between its two pixels, and
    then it is laid over itself. -/
theorem redCanvas_painted : redPixel.grid.Smooth ∧
    redCanvas.StaysPainted (fun _ _ _ _ _ => .ok .transparent)
      [.clear 0 ⟨0, 0, 1, 1⟩, .composite 0 0 ⟨1 / 2, 0⟩, .composite 0 1 ⟨0, 0⟩] := by
  have valid : redPixel.grid.Premultiplied :=
    Grid.premultiplied_fill (g := redPixel.grid) (by decide +kernel)
  have painted : redCanvas.Painted := by
    intro c there
    obtain rfl := Array.mem_singleton.1 there
    exact Grid.premultiplied_fill (g := .filled 2 1 .transparent) Rgba.premultiplied_transparent
  have pictured : redCanvas.Pictured := by
    intro n b node
    match n with
    | 0 => cases node; exact valid
    | 1 | n + 2 => cases node
  refine premultiplied_throughout valid ⟨by decide, by decide⟩ painted
    (painted.paints pictured (fun _ _ _ _ _ _ _ read => ?_) ?_)
  · cases read
    exact Rgba.premultiplied_transparent
  · intro op there
    fin_cases there
    · exact (by decide +kernel : (⟨0, 0, 1, 1⟩ : Rgba Rat).Premultiplied)
    · trivial
    · trivial

end PixelKernel.Graph
