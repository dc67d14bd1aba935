import PixelKernel.Language.Code

/-! # Chunks of code

Code under construction. A jump out of a loop that is still open is kept by its meaning
and becomes a relative jump when the loop closes.
-/

namespace PixelKernel.Language

inductive Step where
  | op (o : Op)
  | breakOut
  | continueOn
  deriving Repr, DecidableEq

abbrev Chunk := List Step

namespace Chunk

def ofOps (ops : List Op) : Chunk := ops.map .op

/-- Instructions of a chunk without open loops. -/
def ops (c : Chunk) : List Op := c.filterMap fun
  | .op o => some o
  | _ => none

/-- Distance of a jump, in a word. -/
def distance (site target : Nat) : Int32 := Int32.ofInt ((target : Int) - site)

/-- Resolves the open jumps of a loop whose code starts `site` instructions back. -/
def closeFrom (site again stop : Nat) : Chunk → Chunk
  | [] => []
  | .op o :: rest => .op o :: closeFrom (site + 1) again stop rest
  | .breakOut :: rest => .op (.jump (distance site stop)) :: closeFrom (site + 1) again stop rest
  | .continueOn :: rest => .op (.jump (distance site again)) :: closeFrom (site + 1) again stop rest

/-- Closes a loop: breaks lead behind it, continues to the instruction `again`. -/
def closeLoop (again : Nat) (loop : Chunk) : Chunk := closeFrom 0 again loop.length loop

def ifThen (cond : List Op) (yes : Chunk) : Chunk :=
  ofOps cond ++ .op (.jumpIfFalse (distance 0 (yes.length + 1))) :: yes

def ifElse (cond : List Op) (yes no : Chunk) : Chunk :=
  ofOps cond ++ .op (.jumpIfFalse (distance 0 (yes.length + 2))) :: yes
    ++ .op (.jump (distance 0 (no.length + 1))) :: no

/-- A loop that tests first; without a condition it runs until something leaves it. A
    continue goes to the step, or to the test of a loop that has no step. -/
def testFirst (cond : Option (List Op)) (body : Chunk) (next : Option (List Op)) : Chunk :=
  let step := next.getD []
  let test : Chunk := match cond with
    | none => []
    | some c => ofOps c ++ [.op (.jumpIfFalse (distance 0 (body.length + step.length + 2)))]
  let behind := test.length + body.length
  let again := if next.isSome then behind else 0
  let back := behind + step.length
  closeLoop again (test ++ body ++ ofOps step ++ [.op (.jump (distance back 0))])

/-- A loop that tests last. -/
def testLast (body : Chunk) (cond : List Op) : Chunk :=
  let back := body.length + cond.length
  closeLoop body.length (body ++ ofOps cond ++ [.op (.jumpIfTrue (distance back 0))])

end Chunk

namespace Op

/-- Code of a conditional expression. -/
def choose (cond yes no : List Op) : List Op :=
  cond ++ .jumpIfFalse (Chunk.distance 0 (yes.length + 2)) :: yes
    ++ .jump (Chunk.distance 0 (no.length + 1)) :: no

/-- Code of `&&` and `||`: the right operand runs only if the left one does not decide. -/
def shortCircuit (op : LogicOp) (left right : List Op) : List Op :=
  let skip := Chunk.distance 0 (right.length + 2)
  let leave : Op := match op with
    | .and => .jumpIfFalse skip
    | .or => .jumpIfTrue skip
  left ++ .dup :: leave :: .pop :: right

end Op
end PixelKernel.Language
