import PixelKernel.Graph.Store

/-! # Descriptions

One line of text for nodes and canvases. Kernels describe themselves elsewhere, so their
images have none here.
-/

namespace PixelKernel.Graph

variable {κ χ : Type} [Scalar κ] [Scalar χ]

/-- Fields in braces, with dots for those left out. -/
def describeFields (name : String) (fields : List (String × String)) : String :=
  let parts := fields.map fun (field, text) => field ++ ": " ++ text ++ ", "
  name ++ " \x7b " ++ String.join parts ++ ".. \x7d"

def Canvas.description (c : Canvas κ χ) : String :=
  describeFields "AccumulationCanvas" [("extent", c.extent.text)]

namespace Store

def describe? (s : Store κ χ) (n : Nat) : Option String :=
  let node := s.node n
  let text fields := some (describeFields "Sampler" (("kind", node.kind) :: fields))
  match node with
  | .empty => text []
  | .buffer b =>
    text [("size", "(" ++ toString b.grid.width ++ ", " ++ toString b.grid.height ++ ")")]
  | .kernel .. => none
  | .transform _ t =>
    text [("transform", "AffineTransform(Affine(" ++ Affine.listText t.toList ++ "))")]
  | .crop _ rect => text [("rect", rect.text)]
  | .canvas _ => text [("extent", (s.extent n).text)]

end Store
end PixelKernel.Graph
