import PixelKernel.Json.Value
import PixelKernel.Text.Space

/-! # Limits of an evaluation -/

namespace PixelKernel.Graph

structure Limits where
  /-- Instructions that one run of a kernel may take, helper calls included. -/
  instructions : Nat
  /-- Edges on a path through the image graph. -/
  depth : Nat
  deriving Repr, DecidableEq

namespace Limits

def standard : Limits := ⟨1000000, 64⟩

/-- A positive 64-bit number in decimal digits, a plus sign and white space allowed. -/
def readBudget? (text : String) : Option Nat :=
  let cs := match Text.trim text.toList with
    | '+' :: rest => rest
    | cs => cs
  if cs.isEmpty || !cs.all Char.isDigit then none
  else
    let n := cs.foldl (fun n c => 10 * n + (c.toNat - '0'.toNat)) 0
    if 0 < n ∧ n < 2 ^ 64 then some n else none

/-- Limits where a setting of the surroundings may replace the budget. A setting that is no
    budget is ignored. -/
def ofSetting (setting : Option String) : Limits :=
  match setting.bind readBudget? with
  | some n => { standard with instructions := n }
  | none => standard

def size? : Json → Option Nat
  | .int n => if 0 ≤ n ∧ n < 2 ^ 64 then some n.toNat else none
  | _ => none

/-- A part that may be missing, in which case the default stands. -/
def part? (default : Nat) : Option Json → Option Nat
  | none => some default
  | some v => size? v

/-- Limits as data: an object, or a list of the parts in order. -/
def ofJson? (defaults : Limits) : Json → Option Limits
  | .obj fields => do
    return ⟨← part? defaults.instructions (fields.lookup "instruction_budget"),
      ← part? defaults.depth (fields.lookup "max_graph_depth")⟩
  | .arr items =>
    if items.length > 2 then none
    else do
      return ⟨← part? defaults.instructions items[0]?, ← part? defaults.depth items[1]?⟩
  | _ => none

end Limits
end PixelKernel.Graph
