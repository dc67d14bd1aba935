import PixelKernel.Geometry.Affine
import PixelKernel.Graph.Kernel
import PixelKernel.Graph.Limits
import PixelKernel.Pixel.Grid

/-! # The store of images

Images form a graph whose nodes are never changed; kernels and canvases do change, and
nodes refer to them by number. Edges lead from transforms and crops to older nodes, and
from kernels to whatever is bound to their sampler arguments.
-/

namespace PixelKernel.Graph

open PixelKernel.Language (Value Target)

/-- Where a kernel's image may be seen. -/
inductive ExtentPolicy (κ : Type) where
  /-- Everywhere. -/
  | infinite
  | fixed (rect : Rect κ)
  /-- Where the named sampler argument, or any bound one, may be seen, shrunk on each side. -/
  | standard (argument : Option String) (dx dy : κ)
  /-- As the caller makes of the kernel each time, who may ask where its inputs may be seen. -/
  | asking (f : Kernel → (Nat → Rect κ) → Rect κ)

namespace ExtentPolicy

variable {κ : Type} [Scalar κ]

/-- As the caller makes of the kernel alone. -/
def custom (f : Kernel → Rect κ) : ExtentPolicy κ := .asking fun kernel _ => f kernel

/-- Extent of all inputs, grown on each side. -/
def grown (by' : κ) : ExtentPolicy κ := .standard none (-by') (-by')

end ExtentPolicy

/-- What a kernel may ask for: extents of the nodes that are bound to it. Of others it learns
    nothing. -/
def Kernel.inputExtents {κ : Type} [Scalar κ] (kernel : Kernel) (extent : Nat → Rect κ) (n : Nat) :
    Rect κ :=
  if kernel.boundSamplers.contains n then extent n else .plane

/-- An image of given texels. -/
structure Buffer (κ χ : Type) where
  grid : Pixel.Grid χ
  /-- Reported instead of the rectangle of the pixels. -/
  reported : Option (Rect κ)
  interpolate : Bool

namespace Buffer

variable {κ χ : Type} [Scalar κ] [Scalar χ]

def ofGrid (grid : Pixel.Grid χ) : Buffer κ χ := ⟨grid, none, false⟩

/-- The rectangle of the pixels, unless another one is reported. -/
def extent (b : Buffer κ χ) : Rect κ :=
  b.reported.getD (.ofOriginSize Scalar.zero Scalar.zero (Scalar.ofNat b.grid.width)
    (Scalar.ofNat b.grid.height))

end Buffer

/-- Pixels that images are drawn onto, over a fixed extent. -/
structure Canvas (κ χ : Type) where
  extent : Rect κ
  limits : Limits
  grid : Pixel.Grid χ

inductive Node (κ χ : Type) where
  /-- Transparent everywhere. -/
  | empty
  | buffer (b : Buffer κ χ)
  | kernel (k : Nat) (policy : ExtentPolicy κ)
  /-- Another node moved: it is read where the inverse map leads. -/
  | transform (child : Nat) (t : Affine κ)
  /-- Another node, transparent outside a rectangle. -/
  | crop (child : Nat) (rect : Rect κ)
  /-- What a canvas shows when the graph is read. -/
  | canvas (c : Nat)

def Node.kind {κ χ : Type} : Node κ χ → String
  | empty => "Empty"
  | buffer _ => "Buffer"
  | kernel .. => "Kernel"
  | transform .. => "Transform"
  | crop .. => "Crop"
  | canvas _ => "Canvas"

structure Store (κ χ : Type) where
  kernels : Array Kernel
  nodes : Array (Node κ χ)
  canvases : Array (Canvas κ χ)
  /-- Number of subscriptions ever made; also the next one's number. -/
  subscriptions : Nat

namespace Store

variable {κ χ : Type} [Scalar κ] [Scalar χ]

def new : Store κ χ := ⟨#[], #[], #[], 0⟩

def kernel (s : Store κ χ) (k : Nat) : Kernel := s.kernels.getD k .new

def node (s : Store κ χ) (n : Nat) : Node κ χ := s.nodes.getD n .empty

/-- Adds a node and gives its number. -/
def addNode (s : Store κ χ) (n : Node κ χ) : Nat × Store κ χ :=
  (s.nodes.size, { s with nodes := s.nodes.push n })

def addKernel (s : Store κ χ) : Nat × Store κ χ :=
  (s.kernels.size, { s with kernels := s.kernels.push .new })

def setKernel (s : Store κ χ) (k : Nat) (kernel : Kernel) : Store κ χ :=
  { s with kernels := s.kernels.setIfInBounds k kernel }

/-- Adds the image of a kernel, which must not be one that emits records. -/
def addKernelNode (s : Store κ χ) (k : Nat) (policy : ExtentPolicy κ) :
    Except Fault (Nat × Store κ χ) :=
  if (s.kernel k).target? = some .reduce then .error (.invalidGraph .reduceImage)
  else .ok (s.addNode (.kernel k policy))

/-- Nodes that a node reads. -/
def children (s : Store κ χ) (n : Nat) : List Nat :=
  match s.node n with
  | .kernel k _ => (s.kernel k).boundSamplers
  | .transform child _ | .crop child _ => [child]
  | .empty | .buffer _ | .canvas _ => []

/-- Nodes reached from a node, added to those seen before. The count bounds the depth. -/
def explore (s : Store κ χ) : Nat → List Nat → Nat → List Nat
  | 0, seen, _ => seen
  | fuel + 1, seen, n =>
    if seen.contains n then seen else (s.children n).foldl (s.explore fuel) (n :: seen)

/-- All nodes that reading a node may read, itself included. -/
def reachable (s : Store κ χ) (n : Nat) : List Nat := s.explore (s.nodes.size + 1) [] n

def isImageOf (s : Store κ χ) (k n : Nat) : Bool :=
  match s.node n with
  | .kernel j _ => j == k
  | _ => false

/-- Reading the node would run the kernel. -/
def reaches (s : Store κ χ) (n k : Nat) : Bool := (s.reachable n).any (s.isImageOf k)

/-- Extent of a node. The count bounds the depth. -/
def extentAt (s : Store κ χ) : Nat → Nat → Rect κ
  | 0, _ => .plane
  | fuel + 1, n =>
    match s.node n with
    | .empty => .plane
    | .buffer b => b.extent
    | .transform child t => t.mapExtent (s.extentAt fuel child)
    | .crop child rect => (s.extentAt fuel child).intersect rect
    | .canvas c => ((s.canvases[c]?).map (·.extent)).getD .plane
    | .kernel k policy =>
      let kernel := s.kernel k
      match policy with
      | .infinite => .plane
      | .fixed rect => rect
      | .asking f => f kernel (kernel.inputExtents (s.extentAt fuel))
      | .standard (some name) dx dy =>
        let base : Rect κ := match kernel.argument name with
          | .ok (some (.sampler (some m))) => s.extentAt fuel m
          | _ => .plane
        base.inset dx dy
      | .standard none dx dy =>
        let base : Rect κ := match kernel.boundSamplers.map (s.extentAt fuel) with
          | [] => .plane
          | r :: rest => rest.foldl Rect.union r
        base.inset dx dy

/-- Region outside which a node is transparent, as far as is known. -/
def extent (s : Store κ χ) (n : Nat) : Rect κ := s.extentAt (s.nodes.size + 1) n

/-- The map of a transform node; other nodes have none of their own. -/
def transform (s : Store κ χ) (n : Nat) : Affine κ :=
  match s.node n with
  | .transform _ t => t
  | _ => .identity

end Store
end PixelKernel.Graph
