import PixelKernel.Proofs.Number.Unsigned
import PixelKernel.Language.Code.Lowering

/-! # The pool of constants

Constants are compared the way the language compares values. Among the values that a program
can hold as constants this is equality: there is no NaN and no negative zero. There are fewer
of them than 32-bit words, so an index never overflows.
-/

namespace PixelKernel.Language

open Unsigned

/-- Values that literals and initial zeros have. -/
inductive Constant : Value → Prop where
  | bool (b) : Constant (.bool b)
  | int {n : Int32} (h : 0 ≤ n.toInt) : Constant (.int n)
  | float {x : Float32} (h : Plain x.toModel.unpack) : Constant (.float x)
  | vec2 : Constant (.vec2 0 0)
  | vec3 : Constant (.vec3 0 0 0)
  | vec4 : Constant (.vec4 0 0 0 0)

namespace Constant

theorem zero {t : Ty} (value : t ≠ .void) (storable : t ≠ .sampler) : Constant (.zero t) := by
  cases t with
  | void => exact absurd rfl value
  | sampler => exact absurd rfl storable
  | bool => exact .bool _
  | int => exact .int (by decide)
  | float => exact .float rfl
  | vec2 => exact .vec2
  | vec3 => exact .vec3
  | vec4 | color => exact .vec4

theorem one (integer : Bool) : Constant (if integer then .int 1 else .float 1) := by
  cases integer with
  | true => exact .int (by decide)
  | false => exact .float rfl

theorem same_iff {v w : Value} (hv : Constant v) (hw : Constant w) : v.same w = true ↔ v = w := by
  have zeros : ((0 : Float32) == 0) = true := (value_eq_iff (x := 0) (y := 0) rfl rfl).2 rfl
  cases hv <;> cases hw <;> simp [Value.same, zeros]
  next hx y hy => exact value_eq_iff hx hy

/-- A number of its own for every constant. -/
def number : Value → Nat
  | .bool b => if b then 0 else 1
  | .vec2 .. => 2
  | .vec3 .. => 3
  | .vec4 .. => 4
  | .sampler _ => 5
  | .float x => 6 + x.toBits.toNat
  | .int n => 7 + 255 * 2 ^ 23 + n.toInt.toNat

theorem number_lt {v : Value} (h : Constant v) : number v < 2 ^ 32 := by
  cases h with
  | bool b => cases b <;> decide
  | int h =>
      next n =>
      have := n.toInt_lt
      simp only [number]
      omega
  | float h =>
      have := (toNat_toBits h).2
      simp only [number]
      omega
  | vec2 | vec3 | vec4 => decide

/-- Numbers of floats lie between those of ints and those of the other constants. -/
theorem number_range {v : Value} (h : Constant v) :
    match v with
    | .int _ => 7 + 255 * 2 ^ 23 ≤ number v
    | .float _ => 6 ≤ number v ∧ number v < 7 + 255 * 2 ^ 23
    | _ => number v < 6 := by
  cases h with
  | bool b => cases b <;> decide
  | int => exact Nat.le_add_right ..
  | float h =>
      have := (toNat_toBits h).2
      simp only [number]
      omega
  | vec2 | vec3 | vec4 => decide

theorem number_inj {v w : Value} (hv : Constant v) (hw : Constant w) (h : number v = number w) :
    v = w := by
  have rv := number_range hv
  have rw := number_range hw
  cases hv <;> cases hw
  case int.int m hm n hn =>
    simp only [number] at h
    exact congrArg Value.int (Int32.toInt_inj.1 (by omega))
  case float.float x hx y hy =>
    have same : x.toBits = y.toBits := UInt32.toNat_inj.1 (by simpa [number] using h)
    exact congrArg Value.float (Float32.toBits_inj.1 same)
  case bool.bool b c => cases b <;> cases c <;> first | rfl | cases h
  all_goals first
    | rfl
    | (dsimp only at rv rw; omega)
    | (simp [number] at h; done)
    | (next b => cases b <;> simp [number] at h)

end Constant

/-- A pool holds each constant once. -/
structure Pool (consts : Array Value) : Prop where
  constant : ∀ v ∈ consts, Constant v
  nodup : consts.toList.Nodup

namespace Pool

variable {consts : Array Value} {v : Value}

theorem empty : Pool #[] := ⟨nofun, List.nodup_nil⟩

theorem size_le (h : Pool consts) : consts.size ≤ 2 ^ 32 := by
  have numbers : (consts.toList.map Constant.number).Nodup := by
    refine List.Nodup.map_on (fun v hv w hw => ?_) h.nodup
    exact Constant.number_inj (h.constant v (by simpa using hv)) (h.constant w (by simpa using hw))
  have below : consts.toList.map Constant.number ⊆ List.range (2 ^ 32) := by
    intro n hn
    obtain ⟨v, hv, rfl⟩ := List.mem_map.1 hn
    exact List.mem_range.2 (Constant.number_lt (h.constant v (by simpa using hv)))
  simpa using (List.subperm_of_subset numbers below).length_le

theorem push (h : Pool consts) (hv : Constant v) (fresh : v ∉ consts) : Pool (consts.push v) where
  constant w hw := (Array.mem_push.1 hw).elim (h.constant w) (· ▸ hv)
  nodup := by
    rw [Array.toList_push, List.nodup_append]
    exact ⟨h.nodup, List.nodup_singleton v, by
      intro a ha b hb hab
      rw [List.mem_singleton] at hb
      exact fresh (by rw [← hb, ← hab]; simpa using ha)⟩

end Pool

end PixelKernel.Language
