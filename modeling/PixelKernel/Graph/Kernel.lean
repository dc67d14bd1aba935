import PixelKernel.Graph.Binding
import PixelKernel.Language.Code.Lowering

/-! # Kernels

A kernel keeps the source of its last compilation, what came of it, what is bound to its
arguments, and who wants to hear of changes. Compiling replaces the program and the log and
forgets all bindings, whether it succeeds or not.
-/

namespace PixelKernel.Graph

open PixelKernel.Language (Program Argument Value Target Ty)

structure Kernel where
  source : String
  /-- The program of the last compilation, if it succeeded. -/
  program? : Option Program
  /-- Lines about the last compilation: none if it succeeded, one if it failed. -/
  log? : Option (List String)
  /-- Bindings of the program's arguments, one place for each. -/
  bindings : List (Option Value)
  /-- Subscriptions, the oldest first. -/
  observers : List Nat
  deriving Repr

namespace Kernel

def new : Kernel := ⟨"", none, none, [], []⟩

instance : Inhabited Kernel := ⟨new⟩

def isCompiled (k : Kernel) : Bool := k.program?.isSome

def arguments? (k : Kernel) : Option (List Argument) := k.program?.map (·.arguments)

def target? (k : Kernel) : Option Target := k.program?.map (·.target)

/-- Declared arguments with their bindings. -/
def slots (k : Kernel) : List (Argument × Option Value) :=
  (k.arguments?.getD []).zip k.bindings

def argumentIndex? (k : Kernel) (name : String) : Option Nat :=
  k.arguments?.bind fun as => as.findIdx? (·.name = name)

/-- The binding of an argument. -/
def argument (k : Kernel) (name : String) : Except Fault (Option Value) :=
  match k.argumentIndex? name with
  | none => .error (.unknownArgument name)
  | some i => .ok (k.bindings[i]?).join

/-- Nodes bound to sampler arguments, in the order of declaration. -/
def boundSamplers (k : Kernel) : List Nat :=
  k.slots.filterMap fun
    | (_, some (.sampler (some n))) => some n
    | _ => none

/-- The first argument that has to be bound and is not. -/
def missing? (k : Kernel) : Option Argument :=
  (k.slots.find? fun (a, v) => v.isNone && a.ty != .sampler).map (·.1)

/-- Says why the kernel cannot run. -/
def validate (k : Kernel) : Except Fault Unit :=
  match k.program? with
  | none => .error (.invalidGraph .notCompiled)
  | some p =>
    match k.missing? with
    | some a => .error (.invalidGraph (.unbound p.kernelName a.name))
    | none => .ok ()

/-- A program is there and all but samplers are bound. -/
def isValid (k : Kernel) : Bool := k.validate.isOk

/-- The kernel after compiling a source. A failure takes the program away. -/
def compile (k : Kernel) (source : String) : Kernel :=
  match Language.compile source with
  | .ok p =>
    { k with
      source
      program? := some p
      log? := some []
      bindings := p.arguments.map fun _ => none }
  | .error d =>
    { k with
      source
      program? := none
      log? := some [d.message]
      bindings := [] }

/-- What compiling reports: the line in the log, if there is one. -/
def outcome (k : Kernel) : Except Fault Unit :=
  match k.log? with
  | some (line :: _) => .error (.compile line)
  | _ => .ok ()

/-- Puts a binding in its place. -/
def setBinding (k : Kernel) (i : Nat) (v : Option Value) : Kernel :=
  { k with bindings := k.bindings.set i v }

end Kernel
end PixelKernel.Graph
