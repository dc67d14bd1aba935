import PixelKernel.Graph.Plan

/-! # Reading a plan

A node has a colour at each point of the space it is read in. A kernel runs for its point
and reads other nodes through its host; what running means is a parameter, so that the
geometry of plans does not depend on it.
-/

namespace PixelKernel.Graph

open PixelKernel.Language (Program Value Trap Host Pair)

/-- What a running kernel may read: nodes by their places in the plan. -/
structure Access (κ χ : Type) where
  sample : Nat → Point κ → Except Trap (Rgba χ)
  toWorld : Nat → Affine κ
  fromWorld : Nat → Affine κ
  extent : Nat → Rect κ

/-- How a program, given its arguments and what it can read, answers at a point. -/
abbrev Runner (κ χ : Type) :=
  Program → List Value → Access κ χ → Point κ → Except Trap (Rgba χ)

namespace Plan

variable {κ χ : Type} [Scalar κ] [Scalar χ] [Narrow κ χ]

/-- What a node of a plan can read, given how to read nodes before it. -/
def access (plan : Plan κ χ) (sample : Nat → Point κ → Except Trap (Rgba χ)) : Access κ χ where
  sample := sample
  toWorld i := ((plan.nodes[i]?).map (·.toWorld)).getD .identity
  fromWorld i := ((plan.nodes[i]?).map (·.fromWorld)).getD .identity
  extent i := ((plan.nodes[i]?).map (·.extent)).getD .plane

/-- Colour of a node at a point. Nodes read only nodes before them; whatever else a plan
    might hold reads as transparent. -/
def colour (plan : Plan κ χ) (run : Runner κ χ) (n : Nat) (p : Point κ) :
    Except Trap (Rgba χ) :=
  match plan.nodes[n]? with
  | none => .ok Rgba.transparent
  | some node =>
    match node.op with
    | .empty => .ok Rgba.transparent
    | .pixels grid origin interpolate =>
      .ok (grid.sample interpolate (⟨p.x - origin.x, p.y - origin.y⟩ : Point κ))
    | .kernel program args =>
      run program args
        (plan.access fun i q => if _h : i < n then colour plan run i q else .ok Rgba.transparent)
        p
    | .transform child inverse =>
      if _h : child < n then colour plan run child (inverse.apply p) else .ok Rgba.transparent
    | .crop child rect =>
      if rect.contains p then
        if _h : child < n then colour plan run child p else .ok Rgba.transparent
      else .ok Rgba.transparent
termination_by n

/-- Colour of the root at a point. -/
def rootColour (plan : Plan κ χ) (run : Runner κ χ) (p : Point κ) : Except Trap (Rgba χ) :=
  plan.colour run plan.root p

end Plan

def pairOf (p : Point Float) : Pair := (Binary.narrow p.x, Binary.narrow p.y)

def pointOf (p : Pair) : Point Float := ⟨Binary.widen p.1, Binary.widen p.2⟩

/-- The host of a kernel that runs for a point. An unbound sampler is transparent, unmoved
    and unbounded. -/
def Access.host {σ : Type} (access : Access Float Float32) (p : Point Float)
    (emit : Rgba Float32 → σ → Except Trap Unit × σ) : Host σ where
  destination := pairOf p
  sample
    | none, _, s => (.ok Rgba.transparent, s)
    | some i, q, s => (access.sample i ((access.toWorld i).apply (pointOf q)), s)
  transform
    | none, q, s => (q, s)
    | some i, q, s => (pairOf ((access.fromWorld i).apply (pointOf q)), s)
  extent
    | none, s => (corners .plane, s)
    | some i, s => (corners ((access.fromWorld i).mapExtent (access.extent i)), s)
  emit := emit
where
  corners (r : Rect Float) : Pair × Pair :=
    ((r.x0.toFloat32, r.y0.toFloat32), (r.width.toFloat32, r.height.toFloat32))

/-- Runs a program for its colour, with a budget of its own. -/
def runForColour (budget : Nat) : Runner Float Float32 := fun program args access p =>
  let host : Host Unit := access.host p fun _ s => (.error .emitOutside, s)
  match (program.run args host budget ()).result with
  | .error t => .error t
  | .ok (some (.vec4 r g b a)) => .ok ⟨r, g, b, a⟩
  | .ok _ => .error (.noColour program.kernelName)

/-- Runs the root of a plan for its records, added to those emitted before. -/
def Plan.emit (plan : Plan Float Float32) (budget : Nat) (p : Point Float)
    (records : Array (Rgba Float32)) : Except Trap (Array (Rgba Float32)) :=
  match plan.nodes[plan.root]? with
  | some ⟨.kernel program args, _, _, _⟩ =>
    let access := plan.access (plan.colour (runForColour budget))
    let host : Host (Array (Rgba Float32)) := access.host p fun c s => (.ok (), s.push c)
    let run := program.run args host budget records
    match run.result with
    | .error t => .error t
    | .ok _ => .ok run.state
  | _ => .error .noReduceRoot

end PixelKernel.Graph
