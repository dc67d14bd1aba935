import PixelKernel.Graph.Store

/-! # Changes to kernels

Compiling and binding change a kernel and tell its observers, each once and in the order
of their subscriptions. What fails changes nothing and tells nobody, but a compilation
that fails has taken place all the same.
-/

namespace PixelKernel.Graph

open PixelKernel.Language (Value)

inductive Event where
  | moduleChanged
  | argumentChanged (name : String)
  deriving Repr, DecidableEq

/-- An event as one subscription hears it. -/
structure Notice where
  subscription : Nat
  event : Event
  deriving Repr, DecidableEq

/-- A notice, and the store as its observer found it. -/
structure Delivery (κ χ : Type) where
  notice : Notice
  found : Store κ χ

/-- What an operation on a kernel did. -/
structure Change (κ χ : Type) where
  result : Except Fault Unit
  /-- What observers were told, the first one first. -/
  deliveries : List (Delivery κ χ)
  store : Store κ χ

def Change.notices {κ χ : Type} (c : Change κ χ) : List Notice := c.deliveries.map (·.notice)

namespace Store

variable {κ χ : Type} [Scalar κ] [Scalar χ]

/-- Tells the observers of a kernel of an event, one after the other. -/
def notify (s : Store κ χ) (k : Nat) (event : Event) : List (Delivery κ χ) :=
  (s.kernel k).observers.map fun n => ⟨⟨n, event⟩, s⟩

def compile (s : Store κ χ) (k : Nat) (source : String) : Change κ χ :=
  let kernel := (s.kernel k).compile source
  let s := s.setKernel k kernel
  ⟨kernel.outcome, s.notify k .moduleChanged, s⟩

def compileLines (s : Store κ χ) (k : Nat) (lines : List String) : Change κ χ :=
  s.compile k ("\n".intercalate lines)

/-- Place and value of a new binding, if the kernel takes it. -/
def placement (s : Store κ χ) (k : Nat) (name : String) (v : Option Value) :
    Except Fault (Nat × Option Value) := do
  let kernel := s.kernel k
  match kernel.argumentIndex? name with
  | none => throw (.unknownArgument name)
  | some i =>
    match v, (kernel.arguments?.getD [])[i]? with
    | some v, some a =>
      let v ← Binding.coerce a v
      match v with
      | .sampler (some n) =>
        if s.reaches n k then throw (.invalidGraph (.dependsOnItself name))
      | _ => pure ()
      return (i, some v)
    | _, _ => return (i, none)

/-- Binds an argument, or unbinds it. -/
def bind (s : Store κ χ) (k : Nat) (name : String) (v : Option Value) : Change κ χ :=
  match s.placement k name v with
  | .error fault => ⟨.error fault, [], s⟩
  | .ok (i, v) =>
    let s := s.setKernel k ((s.kernel k).setBinding i v)
    ⟨.ok (), s.notify k (.argumentChanged name), s⟩

/-- Binds an argument to what data stands for. -/
def bindJson (s : Store κ χ) (k : Nat) (name : String) (v : Json) : Change κ χ :=
  match Binding.ofJson v with
  | .error fault => ⟨.error fault, [], s⟩
  | .ok v => s.bind k name v

/-- Adds an observer and gives the number of its subscription. -/
def subscribe (s : Store κ χ) (k : Nat) : Nat × Store κ χ :=
  let kernel := s.kernel k
  let n := s.subscriptions
  (n, { s.setKernel k { kernel with observers := kernel.observers ++ [n] } with
    subscriptions := n + 1 })

/-- Removes an observer; false if the kernel does not have it. -/
def unsubscribe (s : Store κ χ) (k n : Nat) : Bool × Store κ χ :=
  let kernel := s.kernel k
  (kernel.observers.contains n,
    s.setKernel k { kernel with observers := kernel.observers.filter (· != n) })

end Store
end PixelKernel.Graph
