import PixelKernel.Language.Code

/-! # The stack machine

A machine is the frame that runs and those that wait for it. It goes on step by step
while a budget lasts; one step takes one unit of it, in helper functions too. What the
machine cannot do itself it asks of its host, whose state passes through the run.
-/

namespace PixelKernel.Language

abbrev Pair := Float32 × Float32

/-- Why a run ended without a result. -/
inductive Trap where
  | budget
  | callDepth
  | missingReturn (function : String)
  | noFunction (index : Nat)
  | argumentCount (function : String) (wanted given : Nat)
  | outOfCode (pc : Nat) (function : String)
  | stackUnderflow
  | noConstant
  | noSlot
  | storeIntoScalar
  | storeOfScalar
  | selectOfScalar
  | negation
  | negationOfBool
  | arithmetic (a b : Ty)
  | order (a b : Ty)
  | toFloat (t : Ty)
  | toInt (t : Ty)
  | toBool (t : Ty)
  | constructOf
  | laneCount
  | branch
  | jump (target : Int)
  | notSampler (t : Ty)
  | notPoint (t : Ty)
  | emitOf
  | arguments (f : Builtin)
  | emitOutside
  | noColour (kernel : String)
  | noReduceRoot
  deriving Repr, DecidableEq

/-- Names of types in a message about a conversion. -/
def Ty.label : Ty → String
  | void => "Void"
  | bool => "Bool"
  | int => "Int"
  | float => "Float"
  | vec2 => "Vec2"
  | vec3 => "Vec3"
  | vec4 => "Vec4"
  | color => "Color"
  | sampler => "Sampler"

def Trap.text : Trap → String
  | budget => "instruction budget exhausted"
  | callDepth => "call depth exceeded"
  | missingReturn f => "'" ++ f ++ "' reached its end without returning a value"
  | noFunction i => "function index " ++ toString i ++ " out of range"
  | argumentCount f wanted given =>
    "'" ++ f ++ "' expects " ++ toString wanted ++ " argument(s), got " ++ toString given
  | outOfCode pc f => "pc " ++ toString pc ++ " out of range in '" ++ f ++ "'"
  | stackUnderflow => "stack underflow"
  | noConstant => "const idx out of range"
  | noSlot => "local slot out of range"
  | storeIntoScalar => "swizzle store into non-vector"
  | storeOfScalar => "swizzle store of non-vector value"
  | selectOfScalar => "swizzle of non-vector"
  | negation => "negation of non-numeric value"
  | negationOfBool => "'!' on non-bool"
  | arithmetic a b => "arithmetic on incompatible operands " ++ a.name ++ " and " ++ b.name
  | order a b => "cannot order " ++ a.name ++ " and " ++ b.name
  | toFloat t => "cannot convert " ++ t.label ++ " to float"
  | toInt t => "cannot convert " ++ t.name ++ " to int"
  | toBool t => "cannot convert " ++ t.name ++ " to bool"
  | constructOf => "vector constructor of non-numeric"
  | laneCount => "vector constructor component count mismatch"
  | branch => "branch on non-bool"
  | jump target => "jump target " ++ toString target ++ " out of range"
  | notSampler t => "expected sampler, found " ++ t.name
  | notPoint t => "expected vec2, found " ++ t.name
  | emitOf => "emit expects a vec4"
  | arguments f => "bad arguments for builtin '" ++ f.name ++ "'"
  | emitOutside => "emit called outside a reduce kernel"
  | noColour kernel => "kernel '" ++ kernel ++ "' did not return a color"
  | noReduceRoot => "reduce plan has no kernel root"

/-- What a running kernel asks of its surroundings. Samplers are given by number; an unbound
    one has none. -/
structure Host (σ : Type) where
  /-- The place the kernel is run for. -/
  destination : Pair
  sample : Option Nat → Pair → σ → Except Trap (Rgba Float32) × σ
  /-- A place of the destination, seen by a sampler. -/
  transform : Option Nat → Pair → σ → Pair × σ
  /-- Origin and size of a sampler. -/
  extent : Option Nat → σ → (Pair × Pair) × σ
  emit : Rgba Float32 → σ → Except Trap Unit × σ

namespace Value

def arith (op : ArithOp) : Value → Value → Except Trap Value
  | int a, int b => .ok (.int (match op with
    | .add => a + b
    | .sub => a - b
    | .mul => a * b
    -- division by zero and of the least int by minus one give zero
    | .div => if b = -1 ∧ a = Int32.minValue then 0 else a / b))
  | a, b =>
    let f : Float32 → Float32 → Float32 := match op with
      | .add => (· + ·)
      | .sub => (· - ·)
      | .mul => (· * ·)
      | .div => (· / ·)
    match zip f a b with
    | some v => .ok v
    | none => .error (.arithmetic a.ty b.ty)

def compare (op : OrderOp) (a b : Value) : Except Trap Bool :=
  match op with
  | .eq => .ok (a.same b)
  | .ne => .ok (!a.same b)
  | _ =>
    match a, b with
    | int x, int y => .ok (match op with
      | .lt => x < y
      | .le => x ≤ y
      | .gt => y < x
      | _ => y ≤ x)
    | float x, float y => .ok (match op with
      | .lt => x < y
      | .le => x ≤ y
      | .gt => y < x
      | _ => y ≤ x)
    | _, _ => .error (.order a.ty b.ty)

def toFloat : Value → Except Trap Value
  | int n => .ok (.float n.toFloat32)
  | bool b => .ok (.float (if b then 1 else 0))
  | float x => .ok (.float x)
  | v => .error (.toFloat v.ty)

def toInt : Value → Except Trap Value
  | int n => .ok (.int n)
  | float x => .ok (.int x.toInt32)
  | bool b => .ok (.int (if b then 1 else 0))
  | v => .error (.toInt v.ty)

def toBool : Value → Except Trap Value
  | bool b => .ok (.bool b)
  | int n => .ok (.bool (n != 0))
  | float x => .ok (.bool (x != 0))
  | v => .error (.toBool v.ty)

def neg : Value → Except Trap Value
  | int n => .ok (.int (-n))
  | v => match v.map (- ·) with
    | some v => .ok v
    | none => .error .negation

def not : Value → Except Trap Value
  | bool b => .ok (.bool !b)
  | _ => .error .negationOfBool

def select (lanes : Selection) (v : Value) : Except Trap Value :=
  match v.lanes? with
  | none => .error .selectOfScalar
  | some xs =>
    match (lanes.mapM fun i => xs[i.val]?).bind ofLanes? with
    | some v => .ok v
    | none => .error .selectOfScalar

/-- Replaces some lanes of a vector. -/
def replace (lanes : Selection) (v new : Value) : Except Trap Value :=
  match v.lanes?, new.lanes? with
  | none, _ => .error .storeIntoScalar
  | _, none => .error .storeOfScalar
  | some xs, some ys =>
    let changed := (lanes.zip ys).foldl (fun xs (i, y) => xs.set i.val y) xs
    match ofLanes? changed with
    | some v => .ok v
    | none => .error .storeIntoScalar

/-- A vector of `width` lanes; a single lane fills all of them. -/
def construct (width : Nat) (parts : List Value) : Except Trap Value :=
  match parts.mapM lanes? with
  | none => .error .constructOf
  | some lanes =>
    let lanes := lanes.flatten
    let lanes := if lanes.length = 1 then (lanes.head?.map (List.replicate width)).getD [] else lanes
    if lanes.length ≠ width then .error .laneCount
    else match ofLanes? lanes with
      | some v => .ok v
      | none => .error .laneCount

def sampler? : Value → Except Trap (Option Nat)
  | sampler s => .ok s
  | v => .error (.notSampler v.ty)

def point? : Value → Except Trap Pair
  | vec2 x y => .ok (x, y)
  | v => .error (.notPoint v.ty)

end Value

/-- A call in progress. The stack has its top first. -/
structure Frame where
  function : Function
  pc : Nat
  slots : Array Value
  stack : List Value
  deriving Repr

/-- The running frame and those that wait for it, the nearest first. -/
structure Machine where
  frame : Frame
  callers : List Frame
  deriving Repr

namespace Machine

/-- Most calls in progress at one time. -/
def maxCalls : Nat := 64

/-- Enters a function with its arguments; the other slots start at zero. -/
def enter (p : Program) (index : Nat) (args : List Value) (callers : List Frame) :
    Except Trap Machine :=
  match p.functions[index]? with
  | none => .error (.noFunction index)
  | some f =>
    if args.length ≠ f.params.length then
      .error (.argumentCount f.name f.params.length args.length)
    else if callers.length ≥ maxCalls then .error .callDepth
    else
      let rest := f.locals.toList.drop args.length
      .ok ⟨⟨f, 0, (args ++ rest.map Value.zero).toArray, []⟩, callers⟩

/-- Takes `n` entries off the stack, the deepest first. -/
def takeArgs (n : Nat) (stack : List Value) : Option (List Value × List Value) :=
  if stack.length < n then none else some ((stack.take n).reverse, stack.drop n)

/-- Calls a builtin; `none` stands for no value. -/
def callBuiltin {σ : Type} (host : Host σ) (f : Builtin) (args : List Value) (s : σ) :
    Except Trap (Option Value) × σ :=
  match f, args with
  | .destCoord, [] => (.ok (some (.ofPoint host.destination)), s)
  | .samplerCoord, [v] =>
    match v.sampler? with
    | .error t => (.error t, s)
    | .ok k => let (p, s) := host.transform k host.destination s; (.ok (some (.ofPoint p)), s)
  | .samplerTransform, [v, p] =>
    match v.sampler?, p.point? with
    | .error t, _ => (.error t, s)
    | _, .error t => (.error t, s)
    | .ok k, .ok p => let (q, s) := host.transform k p s; (.ok (some (.ofPoint q)), s)
  | .samplerOrigin, [v] =>
    match v.sampler? with
    | .error t => (.error t, s)
    | .ok k => let ((origin, _), s) := host.extent k s; (.ok (some (.ofPoint origin)), s)
  | .samplerSize, [v] =>
    match v.sampler? with
    | .error t => (.error t, s)
    | .ok k => let ((_, size), s) := host.extent k s; (.ok (some (.ofPoint size)), s)
  | .samplerExtent, [v] =>
    match v.sampler? with
    | .error t => (.error t, s)
    | .ok k =>
      let ((origin, size), s) := host.extent k s
      (.ok (some (.vec4 origin.1 origin.2 size.1 size.2)), s)
  | .sample, [v, p] =>
    match v.sampler?, p.point? with
    | .error t, _ => (.error t, s)
    | _, .error t => (.error t, s)
    | .ok k, .ok p =>
      match host.sample k p s with
      | (.ok c, s) => (.ok (some (.ofColour c)), s)
      | (.error t, s) => (.error t, s)
  | .emit, [v] =>
    match v.colour? with
    | none => (.error .emitOf, s)
    | some c =>
      match host.emit c s with
      | (.ok (), s) => (.ok none, s)
      | (.error t, s) => (.error t, s)
  | f, args =>
    match f.evaluate? args with
    | some v => (.ok (some v), s)
    | none => (.error (.arguments f), s)

/-- The index that a jump at `site` leads to; just behind the code is still in range. -/
def jumpTarget (site : Nat) (offset : Int32) (size : Nat) : Except Trap Nat :=
  let target := (site : Int) + offset.toInt
  if target < 0 ∨ (size : Int) < target then .error (.jump target) else .ok target.toNat

def branch (f : Frame) (site : Nat) (offset : Int32) (take : Bool) : Except Trap Frame :=
  match f.stack with
  | .bool b :: stack =>
    if b = take then do
      let pc ← jumpTarget site offset f.function.code.size
      return { f with pc, stack }
    else .ok { f with stack }
  | [] => .error .stackUnderflow
  | _ :: _ => .error .branch

/-- Replaces the top of the stack. -/
def onTop (f : Frame) (g : Value → Except Trap Value) : Except Trap Frame :=
  match f.stack with
  | [] => .error .stackUnderflow
  | v :: stack => do return { f with stack := (← g v) :: stack }

/-- Replaces the two topmost entries. -/
def onTwo (f : Frame) (g : Value → Value → Except Trap Value) : Except Trap Frame :=
  match f.stack with
  | b :: a :: stack => do return { f with stack := (← g a b) :: stack }
  | _ => .error .stackUnderflow

def store (f : Frame) (slot : Nat) (g : Value → Value → Except Trap Value) :
    Except Trap Frame :=
  match f.stack with
  | [] => .error .stackUnderflow
  | v :: stack =>
    match f.slots[slot]? with
    | none => .error .noSlot
    | some old => do return { f with slots := f.slots.set! slot (← g old v), stack }

/-- Instructions that stay within the frame. The frame already points behind the
    instruction at `site`. Calls and returns are not among them. -/
def local? (p : Program) (site : Nat) (f : Frame) : Op → Except Trap Frame
  | .const i =>
    match p.consts[i.toNat]? with
    | some v => .ok { f with stack := v :: f.stack }
    | none => .error .noConstant
  | .load slot =>
    match f.slots[slot.toNat]? with
    | some v => .ok { f with stack := v :: f.stack }
    | none => .error .noSlot
  | .store slot => store f slot.toNat fun _ v => .ok v
  | .storeLanes slot lanes => store f slot.toNat fun old v => old.replace lanes v
  | .select lanes => onTop f (Value.select lanes)
  | .dup =>
    match f.stack with
    | [] => .error .stackUnderflow
    | v :: stack => .ok { f with stack := v :: v :: stack }
  | .pop =>
    match f.stack with
    | [] => .error .stackUnderflow
    | _ :: stack => .ok { f with stack }
  | .neg => onTop f Value.neg
  | .not => onTop f Value.not
  | .arith op => onTwo f (Value.arith op)
  | .compare op => onTwo f fun a b => do return .bool (← Value.compare op a b)
  | .toFloat depth =>
    match f.stack[depth.toNat]? with
    | none => .error .stackUnderflow
    | some v => do return { f with stack := f.stack.set depth.toNat (← v.toFloat) }
  | .toInt => onTop f Value.toInt
  | .toBool => onTop f Value.toBool
  | .construct width argc =>
    match takeArgs argc.toNat f.stack with
    | none => .error .stackUnderflow
    | some (parts, stack) => do
      return { f with stack := (← Value.construct width.toNat parts) :: stack }
  | .jump offset => do return { f with pc := ← jumpTarget site offset f.function.code.size }
  | .jumpIfFalse offset => branch f site offset false
  | .jumpIfTrue offset => branch f site offset true
  | .builtin .. | .call .. | .ret | .retVoid | .missingReturn => .ok f

inductive Next (σ : Type) where
  | go (m : Machine) (s : σ)
  | stop (r : Except Trap (Option Value)) (s : σ)

/-- Leaves the running function with its result. -/
def leave {σ : Type} (callers : List Frame) (r : Option Value) (s : σ) : Next σ :=
  match callers with
  | [] => .stop (.ok r) s
  | f :: callers => .go ⟨{ f with stack := r.toList ++ f.stack }, callers⟩ s

/-- Executes one instruction. -/
def step {σ : Type} (p : Program) (host : Host σ) (m : Machine) (s : σ) : Next σ :=
  let site := m.frame.pc
  match m.frame.function.code[site]? with
  | none => .stop (.error (.outOfCode site m.frame.function.name)) s
  | some op =>
    let f := { m.frame with pc := site + 1 }
    match op with
    | .builtin b argc =>
      match takeArgs argc.toNat f.stack with
      | none => .stop (.error .stackUnderflow) s
      | some (args, stack) =>
        match callBuiltin host b args s with
        | (.ok r, s) => .go ⟨{ f with stack := r.toList ++ stack }, m.callers⟩ s
        | (.error t, s) => .stop (.error t) s
    | .call index argc =>
      match takeArgs argc.toNat f.stack with
      | none => .stop (.error .stackUnderflow) s
      | some (args, stack) =>
        match enter p index.toNat args ({ f with stack } :: m.callers) with
        | .ok m => .go m s
        | .error t => .stop (.error t) s
    | .ret =>
      match f.stack with
      | [] => .stop (.error .stackUnderflow) s
      | v :: _ => leave m.callers (some v) s
    | .retVoid => leave m.callers none s
    | .missingReturn => .stop (.error (.missingReturn f.function.name)) s
    | op =>
      match local? p site f op with
      | .ok f => .go ⟨f, m.callers⟩ s
      | .error t => .stop (.error t) s

/-- How a run ended, what is left of the budget, and the host's state. -/
structure Run (σ : Type) where
  result : Except Trap (Option Value)
  left : Nat
  state : σ

/-- Steps until the machine stops or the budget is used up. -/
def run {σ : Type} (p : Program) (host : Host σ) : (budget : Nat) → Machine → σ → Run σ
  | 0, _, s => ⟨.error .budget, 0, s⟩
  | budget + 1, m, s =>
    match step p host m s with
    | .go m s => run p host budget m s
    | .stop r s => ⟨r, budget, s⟩

end Machine

/-- Runs the kernel function of a program on its arguments. -/
def Program.run {σ : Type} (p : Program) (args : List Value) (host : Host σ) (budget : Nat)
    (s : σ) : Machine.Run σ :=
  match Machine.enter p p.entry args [] with
  | .ok m => Machine.run p host budget m s
  | .error t => ⟨.error t, budget, s⟩

end PixelKernel.Language
