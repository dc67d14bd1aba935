import Mathlib.Logic.Relator
import PixelKernel.Graph.Evaluate
import PixelKernel.Proofs.Blindness

/-! # Kernels that read nodes under other numbers

A running kernel knows the nodes it may read by numbers. It gives the same colour when they are
numbered otherwise, if each looks as before and the program does not compare them, or could not
tell the difference if it did.
-/

namespace PixelKernel.Graph

open PixelKernel.Language (Program Value Trap Host Corresponds Faithful)

/-- Nodes that correspond look the same to a kernel that reads them. -/
structure Access.Alike {κ χ : Type} (q : Nat → Nat → Prop) (x y : Access κ χ) : Prop where
  sample : ∀ {i j}, q i j → x.sample i = y.sample j
  toWorld : ∀ {i j}, q i j → x.toWorld i = y.toWorld j
  fromWorld : ∀ {i j}, q i j → x.fromWorld i = y.fromWorld j
  extent : ∀ {i j}, q i j → x.extent i = y.extent j

/-- Different nodes have different numbers, so unbound samplers differ from all of them. -/
theorem faithful_of_biUnique {q : Nat → Nat → Prop} (h : Relator.BiUnique q) :
    Faithful (Option.Rel q) := by
  intro a b a' b' ra rb
  cases ra with
  | none => cases rb <;> simp
  | some ra =>
      cases rb with
      | none => simp
      | some rb =>
          simp only [Option.some.injEq]
          exact ⟨fun same => h.2 ra (same ▸ rb), fun same => h.1 ra (same ▸ rb)⟩

section

variable {q : Nat → Nat → Prop} {x y : Access Float Float32}

theorem Access.Alike.host {σ : Type} (alike : x.Alike q y) (p : Point Float)
    (emit : Rgba Float32 → σ → Except Trap Unit × σ) :
    (x.host p emit).Renamed (Option.Rel q) (y.host p emit) where
  unbound := .none
  destination := rfl
  sample {a b} same := by
    cases same with
    | none => rfl
    | some same => simp only [Access.host, alike.sample same, alike.toWorld same]
  transform {a b} same := by
    cases same with
    | none => rfl
    | some same => simp only [Access.host, alike.fromWorld same]
  extent {a b} same := by
    cases same with
    | none => rfl
    | some same => simp only [Access.host, alike.fromWorld same, alike.extent same]
  emit := rfl

theorem runForColour_alike {program : Program} {args args' : List Value} (alike : x.Alike q y)
    (consts : ∀ v ∈ program.consts, v.Plain)
    (same : List.Forall₂ (Value.Renamed (Option.Rel q)) args args')
    (faithful : Relator.BiUnique q ∨ ∀ host : Host Unit, program.Blind args host)
    (budget : Nat) (p : Point Float) :
    runForColour budget program args x p = runForColour budget program args' y p := by
  have runs := Program.run_renamed
    (alike.host p fun _ s => ((.error .emitOutside : Except Trap Unit), s)) consts same
    (faithful.imp faithful_of_biUnique fun blind => blind _) budget ()
  have result := runs.result
  unfold runForColour
  dsimp only
  generalize (program.run args _ budget ()).result = a at result ⊢
  generalize (program.run args' _ budget ()).result = b at result ⊢
  cases result with
  | error t => rfl
  | ok result =>
      cases result with
      | none => rfl
      | some result =>
          cases result with
          | plain => rfl
          | sampler => rfl

end

end PixelKernel.Graph
