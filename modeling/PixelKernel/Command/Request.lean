import PixelKernel.Decimal.Read
import PixelKernel.Geometry.Rect
import PixelKernel.Text.Space

/-! # Requests

What the words of a command line ask for. Words that fit no request are a usage error.
-/

namespace PixelKernel.Command

/-- A kernel to run, what to bind to its arguments, and the pixels to run it for. -/
structure Job where
  file : String
  /-- Argument names with values in data notation. -/
  arguments : List (String × String)
  /-- Sampler argument names with image files. -/
  inputs : List (String × String)
  rect : Rect Float
  width : Nat
  height : Nat

inductive Request where
  | version
  /-- Show a kernel's signature, and its code if asked. -/
  | compile (file : String) (listing json : Bool)
  /-- Render a kernel into an image file. -/
  | render (job : Job) (out : String)
  /-- Show the records of a kernel. -/
  | reduce (job : Job)

/-- Options of a request. Flags stand alone, the others take a value. -/
structure Options where
  flags : List String
  valued : List String
  /-- Options whose value may begin with a hyphen. -/
  hyphened : List String

/-- The words behind a request, sorted by what they are. -/
structure Words where
  flags : List String
  values : List (String × String)
  files : List String

namespace Words

def addFlag (w : Words) (name : String) : Words := { w with flags := name :: w.flags }

def addValue (w : Words) (name value : String) : Words :=
  { w with values := (name, value) :: w.values }

def addFile (w : Words) (file : String) : Words := { w with files := file :: w.files }

/-- Values of an option, in the order they were given. -/
def all (w : Words) (name : String) : List String :=
  w.values.filterMap fun (n, v) => if n = name then some v else none

/-- Value of an option that must not be given twice. -/
def atMostOnce? (w : Words) (name : String) : Option (Option String) :=
  match w.all name with
  | [] => some none
  | [v] => some (some v)
  | _ => none

/-- Value of an option that has to be given once. -/
def once? (w : Words) (name : String) : Option String := (w.atMostOnce? name).join

/-- Whether a flag is given, which it must not be twice. -/
def flag? (w : Words) (name : String) : Option Bool :=
  match w.flags.count name with
  | 0 => some false
  | 1 => some true
  | _ => none

/-- The one file. -/
def file? (w : Words) : Option String :=
  match w.files with
  | [file] => if file.isEmpty then none else some file
  | _ => none

end Words

def isHyphened : List Char → Bool
  | '-' :: _ :: _ => true
  | _ => false

/-- Splits at the first equals sign. -/
def splitEquals (cs : List Char) : List Char × Option (List Char) :=
  match cs.dropWhile (· != '=') with
  | [] => (cs, none)
  | _ :: value => (cs.takeWhile (· != '='), some value)

/-- Sorts words. After a double hyphen all are files. -/
def sortWords (o : Options) : List String → Option Words
  | [] => some ⟨[], [], []⟩
  | word :: rest =>
    match word.toList with
    | ['-', '-'] => some ⟨[], [], rest⟩
    | '-' :: '-' :: cs =>
      let (name, value) := splitEquals cs
      let name := String.ofList name
      if o.flags.contains name then
        if value.isSome then none else (sortWords o rest).map (·.addFlag name)
      else if o.valued.contains name then
        match value, rest with
        | some v, rest => (sortWords o rest).map (·.addValue name (String.ofList v))
        | none, v :: rest =>
          if isHyphened v.toList && !o.hyphened.contains name then none
          else (sortWords o rest).map (·.addValue name v)
        | none, [] => none
      else none
    | cs => if isHyphened cs then none else (sortWords o rest).map (·.addFile word)

/-- A name and a value with an equals sign between them. -/
def binding? (text : String) : Option (String × String) :=
  match splitEquals text.toList with
  | ([], _) | (_, none) => none
  | (name, some value) => some (String.ofList name, String.ofList value)

/-- Number of pixels along a side. -/
def size? (text : String) : Option Nat :=
  match Decimal.readInt? text.toList with
  | some n => if 0 ≤ n ∧ n < 2 ^ 32 then some n.toNat else none
  | none => none

/-- Parts between commas. -/
def splitCommas (cs : List Char) : List (List Char) :=
  cs.foldr (fun c parts =>
    if c = ',' then [] :: parts
    else match parts with
      | [] => [[c]]
      | part :: rest => (c :: part) :: rest) [[]]

/-- A rectangle by its origin and its size. -/
def rect? (text : String) : Option (Rect Float) := do
  match ← (splitCommas text.toList).mapM fun part => Decimal.readFloat? (Text.trim part) with
  | [x, y, w, h] => return .ofOriginSize x y w h
  | _ => none

def jobOptions : Options :=
  ⟨[], ["arg", "input", "rect", "width", "height"], ["rect"]⟩

/-- A job; without a rectangle, it runs over the pixels' own. -/
def job? (w : Words) : Option Job := do
  let file ← w.file?
  let arguments ← (w.all "arg").mapM binding?
  let inputs ← (w.all "input").mapM binding?
  let given ← w.atMostOnce? "rect"
  let width ← size? (← w.once? "width")
  let height ← size? (← w.once? "height")
  let rect ← match given with
    | some text => rect? text
    | none => some (.ofOriginSize 0 0 (Float.ofNat width) (Float.ofNat height))
  return ⟨file, arguments, inputs, rect, width, height⟩

/-- The version is asked for in full or by a letter, whatever follows. -/
def asksVersion (word : String) : Bool := word == "--version" || word.startsWith "-V"

/-- The request of a command line, unless it is a usage error. -/
def Request.ofWords? : List String → Option Request
  | "compile" :: words => do
    let w ← sortWords ⟨["dump-ir", "json"], [], []⟩ words
    return .compile (← w.file?) (← w.flag? "dump-ir") (← w.flag? "json")
  | "render" :: words => do
    let w ← sortWords { jobOptions with valued := "out" :: jobOptions.valued } words
    let out ← w.once? "out"
    if out.isEmpty then none else return .render (← job? w) out
  | "reduce" :: words => do return .reduce (← job? (← sortWords jobOptions words))
  | word :: _ => if asksVersion word then some .version else none
  | [] => none

end PixelKernel.Command
