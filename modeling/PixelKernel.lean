import PixelKernel.Geometry.Affine
import PixelKernel.Language.Code.Lowering
import PixelKernel.Language.Code.Listing
import PixelKernel.Language.Machine
import PixelKernel.Json.Reader
import PixelKernel.Pixel.Layout
import PixelKernel.Graph.Change
import PixelKernel.Graph.Render
import PixelKernel.Graph.Describe
import PixelKernel.Png.Image
import PixelKernel.Main
import PixelKernel.Proofs.Compilation
import PixelKernel.Proofs.Graph.Paths
import PixelKernel.Proofs.Graph.Acyclic
import PixelKernel.Proofs.Graph.Feedback
import PixelKernel.Proofs.Blindness
import PixelKernel.Proofs.Graph.Agreement
import PixelKernel.Proofs.Graph.Canvases
import PixelKernel.Proofs.Graph.Copies
import PixelKernel.Proofs.Graph.Depth
import PixelKernel.Proofs.Graph.Rendering
import PixelKernel.Proofs.Graph.Limits
import PixelKernel.Proofs.Graph.Validation
import PixelKernel.Proofs.Graph.Observers
import PixelKernel.Proofs.Graph.Regions
import PixelKernel.Proofs.Pixel.Codec
import PixelKernel.Proofs.Syntax.Parsing
import PixelKernel.Proofs.Syntax.Depth
import PixelKernel.Proofs.Code.Positions
import PixelKernel.Proofs.Pixel.Access
import PixelKernel.Proofs.Machine.Slots
import PixelKernel.Proofs.Pixel.Sampling
import PixelKernel.Proofs.Graph.Extents
import PixelKernel.Proofs.Graph.Checking
import PixelKernel.Proofs.Graph.Wrapping
import PixelKernel.Proofs.Graph.Bindings
import PixelKernel.Proofs.Graph.Tiles
import PixelKernel.Proofs.Graph.Aligned
import PixelKernel.Proofs.Graph.Unbound
import PixelKernel.Proofs.Geometry.Editing
import PixelKernel.Proofs.Pixel.Premultiplied
import PixelKernel.Proofs.Graph.Premultiplied
import PixelKernel.Proofs.Syntax.Rejection
import PixelKernel.Proofs.Syntax.Marks
import PixelKernel.Proofs.Code.Complaints
import PixelKernel.Proofs.Diagnosis
import PixelKernel.Proofs.Syntax.Names
import PixelKernel.Proofs.Code.Regions
import PixelKernel.Proofs.Code.Assignment
import PixelKernel.Proofs.Code.Texts
import PixelKernel.Proofs.Code.Listing
import PixelKernel.Proofs.Machine.Matching
import PixelKernel.Proofs.Straying
import PixelKernel.Proofs.Syntax.Ending
