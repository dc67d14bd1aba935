import PixelKernel.Graph.Store

/-! # Plans

A plan is a frozen copy of the part of the graph below one root, checked and put in an
order in which every node comes after those it reads. A node met on several ways is
planned once.
-/

namespace PixelKernel.Graph

open PixelKernel.Language (Program Argument Value Target)

namespace Plan

inductive Op (κ χ : Type) where
  | empty
  /-- Texels whose first corner lies at the origin. -/
  | pixels (grid : Pixel.Grid χ) (origin : Point κ) (interpolate : Bool)
  | kernel (program : Program) (args : List Value)
  | transform (child : Nat) (inverse : Affine κ)
  | crop (child : Nat) (rect : Rect κ)

structure Node (κ χ : Type) where
  op : Op κ χ
  /-- From the node's own space, below its transforms, to the space it is read in. -/
  toWorld : Affine κ
  fromWorld : Affine κ
  extent : Rect κ

end Plan

structure Plan (κ χ : Type) where
  nodes : Array (Plan.Node κ χ)
  root : Nat

/-- A plan under construction. -/
structure Planner (κ χ : Type) where
  nodes : Array (Plan.Node κ χ)
  /-- Nodes planned so far, with their places in the plan. -/
  planned : List (Nat × Nat)
  /-- Kernels whose arguments are being planned. -/
  active : List Nat

namespace Planner

variable {κ χ : Type} [Scalar κ] [Scalar χ]

abbrev Build (κ χ : Type) := StateT (Planner κ χ) (Except Fault)

def add (op : Plan.Op κ χ) (toWorld : Affine κ) (extent : Rect κ) : Build κ χ Nat := do
  let p ← get
  set { p with nodes := p.nodes.push ⟨op, toWorld, toWorld.reciprocalInverse, extent⟩ }
  return p.nodes.size

/-- A node of the plan; there is one at every place that planning gives out. -/
def placed (i : Nat) : Build κ χ (Plan.Node κ χ) := do
  return ((← get).nodes[i]?).getD ⟨.empty, .identity, .identity, .plane⟩

/-- A bound sampler by the place of its node in the plan, which a run keeps in 32 bits. -/
def boundSampler (visit : Nat → Build κ χ Nat) (n : Nat) : Build κ χ Value := do
  let i ← visit n
  if i < 2 ^ 32 then return .sampler (some i) else throw (.invalidGraph .tooLarge)

/-- Arguments of a run, samplers by their places in the plan. -/
def arguments (visit : Nat → Build κ χ Nat) (kernel : String) :
    List (Argument × Option Value) → Build κ χ (List Value)
  | [] => return []
  | (a, v) :: rest => do
    let v ← match v with
      | none =>
        if a.ty = .sampler then pure (.sampler none)
        else throw (.invalidGraph (.unbound kernel a.name))
      | some (.sampler (some n)) => boundSampler visit n
      | some v => pure v
    return v :: (← arguments visit kernel rest)

/-- Plans a kernel of the wanted target, given how to plan what it reads. -/
def kernelNode (s : Store κ χ) (visit : Nat → Build κ χ Nat) (k : Nat) (target : Target)
    (extent : Rect κ) : Build κ χ Nat := do
  if (← get).active.contains k then throw (.invalidGraph .cycle)
  match (s.kernel k).program? with
  | none => throw (.invalidGraph .notCompiled)
  | some program =>
    if program.target ≠ target then
      throw (.invalidGraph (.wrongTarget program.kernelName program.target target))
    modify fun p => { p with active := k :: p.active }
    let args ← arguments visit program.kernelName (s.kernel k).slots
    modify fun p => { p with active := p.active.tail }
    add (.kernel program args) .identity extent

/-- Plans a node that is not planned yet. -/
def fresh (s : Store κ χ) (visit : Nat → Build κ χ Nat) (n : Nat) : Build κ χ Nat := do
  match s.node n with
  | .empty => add .empty .identity .plane
  | .buffer b =>
    add (.pixels b.grid ⟨Scalar.zero, Scalar.zero⟩ b.interpolate) .identity b.extent
  | .canvas c =>
    match s.canvases[c]? with
    | none => add .empty .identity .plane
    | some c => add (.pixels c.grid ⟨c.extent.x0, c.extent.y0⟩ false) .identity c.extent
  | .kernel k _ => kernelNode s visit k .normal (s.extent n)
  | .transform child t =>
    let i ← visit child
    match t.inverse? with
    | none => throw (.singularTransform t.singularText)
    | some inverse =>
      let below ← placed i
      add (.transform i inverse) (t.after below.toWorld) (t.mapExtent below.extent)
  | .crop child rect =>
    let i ← visit child
    let below ← placed i
    add (.crop i rect) below.toWorld (below.extent.intersect rect)

/-- Plans a node with `room` levels of the graph left for it and what it reads. -/
def visit (s : Store κ χ) (limit : Nat) : (room : Nat) → Nat → Build κ χ Nat
  | 0, _ => throw (.invalidGraph (.tooDeep limit))
  | room + 1, n => do
    match (← get).planned.lookup n with
    | some i => return i
    | none =>
      let i ← fresh s (visit s limit room) n
      modify fun p => { p with planned := (n, i) :: p.planned }
      return i

end Planner

namespace Plan

variable {κ χ : Type} [Scalar κ] [Scalar χ]

def build (m : Planner.Build κ χ Nat) : Except Fault (Plan κ χ) := do
  let (root, p) ← m.run ⟨#[], [], []⟩
  return ⟨p.nodes, root⟩

/-- Plans an image. Every kernel below it has to be a valid one that gives colours. -/
def forImage (s : Store κ χ) (limits : Limits) (n : Nat) : Except Fault (Plan κ χ) :=
  build (Planner.visit s limits.depth (limits.depth + 1) n)

/-- Plans a kernel that emits records, with all it reads. -/
def forRecords (s : Store κ χ) (limits : Limits) (k : Nat) : Except Fault (Plan κ χ) :=
  build (Planner.kernelNode s (Planner.visit s limits.depth limits.depth) k .reduce .plane)

end Plan
end PixelKernel.Graph
