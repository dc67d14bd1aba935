import PixelKernel.Language.Machine

/-! # Faults

What operations on images, kernels and buffers can fail with. The kind tells the caller
what went wrong in general, the cause in particular. Causes that a caller words itself
are notes.
-/

namespace PixelKernel

inductive BindFault where
  | declared (argument : String) (wanted given : Language.Ty)
  | arrayLength (n : Nat)
  | element (text : String)
  | string
  | object
  | note (text : String)
  deriving Repr, DecidableEq

inductive GraphFault where
  | notCompiled
  | unbound (kernel argument : String)
  | wrongTarget (kernel : String) (found wanted : Language.Target)
  | cycle
  | tooDeep (limit : Nat)
  | tooLarge
  | dependsOnItself (argument : String)
  | reduceImage
  | noKernel
  | canvasExtent (rect : String)
  | canvasTooLarge (rect : String)
  | gridTooLarge (width height : Nat)
  | gridMemory (width height : Nat)
  | note (text : String)
  deriving Repr, DecidableEq

inductive FormatFault where
  | unknown (name : String)
  | rowOverflow
  | bufferOverflow
  | narrowStride (stride width : Nat) (format : String) (row : Nat)
  | tooShort (length width height : Nat) (format : String) (stride needed : Nat)
  | outside (length stride height : Nat)
  | imageTexels (width height expected given : Nat)
  | texels (expected given : Nat)
  | canvasSize (width height givenWidth givenHeight : Nat)
  | rectNotFinite (rect : String)
  | note (text : String)
  deriving Repr, DecidableEq

namespace BindFault

def text : BindFault → String
  | declared argument wanted given =>
    "argument '" ++ argument ++ "' is declared " ++ wanted.name ++ " but was given " ++ given.name
  | arrayLength n => "cannot bind an array of " ++ toString n ++ " elements"
  | element text => "non-numeric vector element " ++ text
  | string => "cannot bind a string"
  | object => "cannot bind an object"
  | note text => text

end BindFault

/-- Names of targets in messages. -/
def targetLabel : Language.Target → String
  | .normal => "Normal"
  | .reduce => "Reduce"

def sizeText (width height : Nat) : String := toString width ++ "x" ++ toString height

namespace GraphFault

def text : GraphFault → String
  | notCompiled => "kernel is not compiled"
  | unbound kernel argument =>
    "kernel '" ++ kernel ++ "' argument '" ++ argument ++ "' is unbound"
  | wrongTarget kernel found wanted =>
    "kernel '" ++ kernel ++ "' has target " ++ targetLabel found ++ ", expected "
      ++ targetLabel wanted
  | cycle => "sampler graph contains a cycle"
  | tooDeep limit => "sampler graph is deeper than " ++ toString limit ++ " nodes"
  | tooLarge => "sampler graph is too large"
  | dependsOnItself argument =>
    "binding '" ++ argument ++ "' would make the kernel depend on itself"
  | reduceImage => "a __reduce kernel cannot be used as an image"
  | noKernel => "reduce engine has no kernel"
  | canvasExtent rect => "canvas extent " ++ rect ++ " must be finite and non-negative"
  | canvasTooLarge rect => "canvas extent " ++ rect ++ " is too large"
  | gridTooLarge w h => sizeText w h ++ " pixel grid is too large"
  | gridMemory w h =>
    "cannot allocate " ++ sizeText w h
      ++ " pixel grid: memory allocation failed because the memory allocator returned an error"
  | note text => text

end GraphFault

namespace FormatFault

def text : FormatFault → String
  | unknown name => "unknown pixel format '" ++ name ++ "'"
  | rowOverflow => "row size overflows"
  | bufferOverflow => "buffer size overflows"
  | narrowStride stride width format row =>
    "stride " ++ toString stride ++ " is smaller than a row of " ++ toString width ++ " " ++ format
      ++ " pixels (" ++ toString row ++ " bytes)"
  | tooShort length width height format stride needed =>
    "buffer holds " ++ toString length ++ " bytes but " ++ sizeText width height ++ " " ++ format
      ++ " with stride " ++ toString stride ++ " needs " ++ toString needed
  | outside length stride height =>
    "rows " ++ toString stride ++ " bytes apart leave a buffer of " ++ toString length
      ++ " bytes before row " ++ toString height
  | imageTexels width height expected given =>
    sizeText width height ++ " image needs " ++ toString expected ++ " texels, got "
      ++ toString given
  | texels expected given =>
    "expected " ++ toString expected ++ " texels, got " ++ toString given
  | canvasSize width height givenWidth givenHeight =>
    "canvas is " ++ sizeText width height ++ " but the buffer describes "
      ++ sizeText givenWidth givenHeight
  | rectNotFinite rect => "render rectangle " ++ rect ++ " is not finite"
  | note text => text

end FormatFault

inductive Fault where
  | compile (diagnostic : String)
  | unknownArgument (name : String)
  | typeMismatch (cause : BindFault)
  | invalidGraph (cause : GraphFault)
  | singularTransform (text : String)
  | format (cause : FormatFault)
  | evaluation (text : String)
  /-- A failure outside this library, with what caused it, the nearest cause first. -/
  | other (text : String) (causes : List String)
  deriving Repr, DecidableEq

namespace Fault

def kind : Fault → String
  | compile _ => "Compile"
  | unknownArgument _ => "UnknownArgument"
  | typeMismatch _ => "TypeMismatch"
  | invalidGraph _ => "InvalidGraph"
  | singularTransform _ => "SingularTransform"
  | format _ => "Format"
  | evaluation _ => "Evaluation"
  | other .. => "Other"

def message : Fault → String
  | compile diagnostic => "compile error: " ++ diagnostic
  | unknownArgument name => "unknown argument: " ++ name
  | typeMismatch cause => "type mismatch: " ++ cause.text
  | invalidGraph cause => "invalid graph: " ++ cause.text
  | singularTransform text => "singular transform: " ++ text
  | format cause => "format error: " ++ cause.text
  | evaluation text => "evaluation error: " ++ text
  | other text _ => text

def ofTrap (t : Language.Trap) : Fault := evaluation t.text

end Fault
end PixelKernel
