import PixelKernel.Command.Disk
import PixelKernel.Command.Request
import PixelKernel.Graph.Change
import PixelKernel.Graph.Render
import PixelKernel.Json.Reader
import PixelKernel.Language.Code.Listing
import PixelKernel.Png.Image

/-! # Running requests

A request ends with an exit code and what it prints. Failures come as a report: what
failed, and why.
-/

namespace PixelKernel.Command

open PixelKernel.Graph (Store Limits Node Buffer Canvas)
open PixelKernel.Language (Argument Program)

/-- What failed, and its causes, the nearest first. -/
structure Report where
  text : String
  causes : List String
  deriving Repr, DecidableEq

namespace Report

def ofFault : Fault → Report
  | .other text causes => ⟨text, causes⟩
  | fault => ⟨fault.message, []⟩

/-- A report under another heading. -/
def under (heading : String) (r : Report) : Report := ⟨heading, r.text :: r.causes⟩

/-- A text whose further lines stand behind a margin. -/
def indented (first margin : String) (text : String) : String :=
  first ++ String.join (text.toList.map fun c =>
    if c = '\n' then "\n" ++ margin else String.singleton c)

/-- Causes with numbers, from `n` on. -/
def numbered (n : Nat) : List String → List String
  | [] => []
  | cause :: rest =>
    let number := toString n
    let pad := String.ofList (List.replicate (5 - number.length) ' ')
    indented (pad ++ number ++ ": ") "       " cause :: numbered (n + 1) rest

def print (r : Report) : String :=
  match r.causes with
  | [] => r.text
  | [cause] => r.text ++ "\n\nCaused by:\n" ++ indented "    " "    " cause
  | causes => r.text ++ "\n\nCaused by:\n" ++ "\n".intercalate (numbered 0 causes)

end Report

/-- How a run ended. -/
structure Outcome where
  code : Nat
  output : String
  errors : String
  deriving Repr, DecidableEq

def argumentText (a : Argument) : String :=
  (if a.isStatic then "static " else "") ++ a.ty.name ++ " " ++ a.name

/-- One line that declares a kernel. -/
def signature (p : Program) : String :=
  let target := match p.target with
    | .normal => "vec4"
    | .reduce => "__reduce void"
  "kernel " ++ target ++ " " ++ p.kernelName ++ "("
    ++ ", ".intercalate (p.arguments.map argumentText) ++ ")"

def argumentJson (a : Argument) : Json :=
  .mkObj [("name", .str a.name), ("type", .str a.ty.name), ("is_static", .bool a.isStatic)]

def signatureJson (p : Program) : Json :=
  .mkObj [("kernel", .str p.kernelName), ("target", .str p.target.name),
    ("arguments", .arr (p.arguments.map argumentJson))]

def recordText (r : Rgba Float32) : String :=
  "\x7b\"x\":" ++ Json.float32Text r.r ++ ",\"y\":" ++ Json.float32Text r.g ++ ",\"tag\":"
    ++ Json.float32Text r.b ++ ",\"extra\":" ++ Json.float32Text r.a ++ "\x7d"

def recordsText (rs : List (Rgba Float32)) : String :=
  "[" ++ ",".intercalate (rs.map recordText) ++ "]"

/-- The image that a file held, as a buffer. -/
def bufferOfImage (i : Png.Image) : Except Fault (Buffer Float Float32) := do
  let texels ← (Pixel.Layout.packed i.width i.height .rgba32).decode i.bytes
  return .ofGrid (← Pixel.Grid.ofTexels i.width i.height texels)

/-- Decodes an image file. -/
def decodeImage (bytes : ByteArray) : Except Fault (Buffer Float Float32) := do
  bufferOfImage (← Png.decode bytes.data.toList)

section

variable {m : Type → Type} [Monad m]

abbrev Run (m : Type → Type) := ExceptT Report m

def failing {α : Type} (e : Except Fault α) : Run m α :=
  match e with
  | .ok a => pure a
  | .error fault => throw (.ofFault fault)

/-- Takes the answer of a disk; a failure is reported under a heading. -/
def headed {α : Type} (heading : String) (answer : m (Except String α)) : Run m α := do
  match ← (answer : m (Except String α)) with
  | .ok a => pure a
  | .error reason => throw ⟨heading, [reason]⟩

def readSource (disk : Disk m) (file : String) : Run m String := do
  let heading := "read kernel '" ++ file ++ "'"
  match String.fromUTF8? (← headed heading (disk.read file)) with
  | some source => return source
  | none => throw ⟨heading, ["stream did not contain valid UTF-8"]⟩

def compileHeading (file : String) : String := "compile '" ++ file ++ "'"

/-- Shows a kernel's signature and, if asked, its code. -/
def compile (disk : Disk m) (file : String) (listing json : Bool) : Run m Outcome := do
  match Language.compile (← readSource disk file) with
  | .error d => throw ⟨compileHeading file, [d.message]⟩
  | .ok p =>
    let shown := if json then (signatureJson p).pretty 0 else signature p
    let code := if listing then p.listing ++ "\n" else ""
    return ⟨0, shown ++ "\n" ++ code, ""⟩

def bindArguments (k : Nat) :
    List (String × String) → Store Float Float32 → Run m (Store Float Float32)
  | [], s => pure s
  | (name, raw) :: rest, s => do
    match Json.read raw with
    | .error reason => throw ⟨"parse --arg " ++ name ++ "=" ++ raw, [reason]⟩
    | .ok v =>
      let change := s.bindJson k name v
      failing change.result
      bindArguments k rest change.store

def bindInputs (disk : Disk m) (k : Nat) :
    List (String × String) → Store Float Float32 → Run m (Store Float Float32)
  | [], s => pure s
  | (name, path) :: rest, s => do
    let bytes ← headed ("read image '" ++ path ++ "'") (disk.read path)
    let buffer ← failing (decodeImage bytes)
    let (n, s) := s.addNode (.buffer buffer)
    let change := s.bind k name (some (.sampler (some n)))
    failing change.result
    bindInputs disk k rest change.store

/-- A store with the job's kernel, ready to run. -/
def prepare (disk : Disk m) (job : Job) : Run m (Nat × Store Float Float32) := do
  let source ← readSource disk job.file
  let (k, s) := (Store.new : Store Float Float32).addKernel
  let change := s.compile k source
  match change.result with
  | .error fault => throw ((Report.ofFault fault).under (compileHeading job.file))
  | .ok () =>
    let s ← bindArguments k job.arguments change.store
    let s ← bindInputs disk k job.inputs s
    failing (s.kernel k).validate
    return (k, s)

/-- Renders a kernel into an image file, whose directory is made if it is missing. -/
def render (disk : Disk m) (limits : Limits) (job : Job) (out : String) : Run m Outcome := do
  let (k, s) ← prepare disk job
  let (n, s) ← failing (s.addKernelNode k .infinite)
  let bytes ← failing (s.renderPacked limits n job.rect job.width job.height .rgba32)
  match parent? out with
  | none => pure ()
  | some directory =>
    headed ("create output dir '" ++ directory ++ "'") (disk.makeDirectory directory)
  let heading := "write png '" ++ out ++ "'"
  match Png.encode ⟨job.width, job.height, bytes⟩ with
  | .error reason =>
    headed heading (disk.write out .empty)
    throw ⟨heading, [reason]⟩
  | .ok file =>
    headed heading (disk.write out ⟨file.toArray⟩)
    return ⟨0, "", "wrote " ++ out ++ "\n"⟩

/-- Shows the records of a kernel. -/
def reduce (disk : Disk m) (limits : Limits) (job : Job) : Run m Outcome := do
  let (k, s) ← prepare disk job
  let records ← failing (s.reduce limits (some k) job.rect job.width job.height)
  return ⟨0, recordsText records.toList ++ "\n", toString records.size ++ " records\n"⟩

def Request.run (disk : Disk m) (limits : Limits) : Request → Run m Outcome
  | .version => return ⟨0, "firtree 0.1.0\n", ""⟩
  | .compile file listing json => Command.compile disk file listing json
  | .render job out => Command.render disk limits job out
  | .reduce job => Command.reduce disk limits job

def usage : String := "usage: firtree compile FILE [--json] [--dump-ir]\n" ++
  "       firtree render FILE --width N --height N --out PNG [--rect X,Y,W,H]\n" ++
  "                      [--arg NAME=VALUE]... [--input NAME=PNG]...\n" ++
  "       firtree reduce FILE --width N --height N [--rect X,Y,W,H]\n" ++
  "                      [--arg NAME=VALUE]... [--input NAME=PNG]...\n"

/-- Runs a command line. -/
def run (disk : Disk m) (limits : Limits) (words : List String) : m Outcome := do
  match Request.ofWords? words with
  | none => return ⟨2, "", usage⟩
  | some request =>
    match ← (request.run disk limits).run with
    | .ok outcome => return outcome
    | .error report => return ⟨1, "", "Error: " ++ report.print ++ "\n"⟩

end
end PixelKernel.Command
