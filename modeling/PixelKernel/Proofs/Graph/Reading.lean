import PixelKernel.Graph.Evaluate
import PixelKernel.Proofs.Graph.Acyclic

/-! # Reading the graph itself

A node can be read without a plan: each one asks the nodes that it reads, as often as it
needs them. This is what plans have to agree with.
-/

namespace PixelKernel.Graph

open PixelKernel.Language (Value Trap)

/-- What a program is given: the bindings, in the order of declaration. Nothing but a sampler
    may be missing. -/
def Kernel.passed (kernel : Kernel) : List Value :=
  kernel.slots.map fun (_, v) => v.getD (.sampler none)

namespace Store

variable {κ χ : Type} [Scalar κ] {s : Store κ χ}

/-! ## Maps

A sampler's own map leads from the space below its transforms to the space it is read in.
-/

/-- The map of a node, given the maps of the nodes that it reads. -/
def toWorldOf (s : Store κ χ) (toWorld : Nat → Affine κ) (n : Nat) : Affine κ :=
  match s.node n with
  | .transform child t => t.after (toWorld child)
  | .crop child _ => toWorld child
  | .empty | .buffer _ | .kernel .. | .canvas _ => .identity

/-- Product of the transforms down to the first node that is neither a transform nor a crop.
    The count bounds the depth. -/
def toWorldAt (s : Store κ χ) : Nat → Nat → Affine κ
  | 0, _ => .identity
  | fuel + 1, n => s.toWorldOf (s.toWorldAt fuel) n

def toWorld (s : Store κ χ) (n : Nat) : Affine κ := s.toWorldAt (s.nodes.size + 1) n

theorem toWorldOf_congr (f g : Nat → Affine κ) (n : Nat) (same : ∀ c ∈ s.children n, f c = g c) :
    s.toWorldOf f n = s.toWorldOf g n := by
  unfold toWorldOf
  unfold children at same
  cases node : s.node n with
  | empty | buffer | canvas | kernel => rfl
  | transform child t | crop child rect =>
      rw [node] at same
      dsimp only
      rw [same child (List.mem_singleton_self child)]

theorem Wired.toWorld_eq (wired : s.Wired) (n : Nat) :
    s.toWorld n = s.toWorldOf s.toWorld n :=
  Wired.unfold wired (fun fuel n => (rfl : s.toWorldAt (fuel + 1) n = _)) toWorldOf_congr n

/-! ## Colours -/

variable [Scalar χ] [Narrow κ χ]

/-- What a kernel that is read directly can read, by the numbers of nodes. -/
def access (s : Store κ χ) (colour : Nat → Point κ → Except Trap (Rgba χ)) : Access κ χ where
  sample := colour
  toWorld := s.toWorld
  fromWorld n := (s.toWorld n).reciprocalInverse
  extent := s.extent

/-- Colour of a node at a point, given the colours of the nodes that it reads. What cannot be
    read is transparent; planning fails where there is something of the kind. -/
def colourOf (s : Store κ χ) (run : Runner κ χ) (colour : Nat → Point κ → Except Trap (Rgba χ))
    (n : Nat) (p : Point κ) : Except Trap (Rgba χ) :=
  match s.node n with
  | .empty => .ok .transparent
  | .buffer b => .ok (b.grid.sample b.interpolate p)
  | .canvas c =>
    match s.canvases[c]? with
    | none => .ok .transparent
    | some c => .ok (c.grid.sample false (⟨p.x - c.extent.x0, p.y - c.extent.y0⟩ : Point κ))
  | .kernel k _ =>
    match (s.kernel k).program? with
    | none => .ok .transparent
    | some program => run program (s.kernel k).passed (s.access colour) p
  | .transform child t =>
    match t.inverse? with
    | none => .ok .transparent
    | some inverse => colour child (inverse.apply p)
  | .crop child rect => if rect.contains p then colour child p else .ok .transparent

/-- Colour of a node with a bound on the depth. -/
def colourAt (s : Store κ χ) (run : Runner κ χ) : Nat → Nat → Point κ → Except Trap (Rgba χ)
  | 0, _ => fun _ => .ok .transparent
  | fuel + 1, n => s.colourOf run (s.colourAt run fuel) n

/-- Colour of a node, read from the graph as it is. -/
def colour (s : Store κ χ) (run : Runner κ χ) : Nat → Point κ → Except Trap (Rgba χ) :=
  s.colourAt run (s.nodes.size + 1)

end Store
end PixelKernel.Graph
