import Mathlib.Data.List.Basic
import PixelKernel.Proofs.Machine.Values

/-! # Types of builtin functions

What overload resolution promises of a call is what the call gives: a value of the resolved
type, or a fault of the host.
-/

namespace PixelKernel.Language

namespace Value

/-- Lanes of two operands of one type, or of which the second is a single float. -/
theorem zip_of_eq_or_float (f : Float32 → Float32 → Float32) {a b : Value}
    (ha : a.ty.lanes?.isSome) (h : b.ty = a.ty ∨ b.ty = .float) :
    ∃ w, zip f a b = some w ∧ w.ty = a.ty := by
  obtain ⟨m, hm⟩ := Option.isSome_iff_exists.1 ha
  have one := Ty.lanes?_le hm
  have width := Ty.ofLanes?_lanes? hm a.ty_ne_color
  rcases h with h | h
  · exact zip_of_ty f hm (h ▸ hm) (.inl rfl) (by rwa [Nat.max_self])
  · exact zip_of_ty f hm (n := 1) (by rw [h]; rfl) (.inr (.inl rfl))
      (by rwa [Nat.max_eq_left one.1])

theorem zip_of_float_or_eq (f : Float32 → Float32 → Float32) {a b : Value}
    (hb : b.ty.lanes?.isSome) (h : a.ty = b.ty ∨ a.ty = .float) :
    ∃ w, zip f a b = some w ∧ w.ty = b.ty := by
  obtain ⟨m, hm⟩ := Option.isSome_iff_exists.1 hb
  have one := Ty.lanes?_le hm
  have width := Ty.ofLanes?_lanes? hm b.ty_ne_color
  rcases h with h | h
  · exact zip_of_ty f (h ▸ hm) hm (.inl rfl) (by rwa [Nat.max_self])
  · exact zip_of_ty f (m := 1) (by rw [h]; rfl) hm (.inr (.inr rfl))
      (by rwa [Nat.max_eq_right one.1])

/-- Three operands of which each has the lanes of the widest or a single one. -/
theorem zip3_of_eq_or_float (f : Float32 → Float32 → Float32 → Float32) {a b c : Value} {t : Ty}
    (ht : t.lanes?.isSome) (color : t ≠ .color) (ha : a.ty = t ∨ a.ty = .float)
    (hb : b.ty = t ∨ b.ty = .float) (hc : c.ty = t ∨ c.ty = .float)
    (widest : a.ty = t ∨ b.ty = t ∨ c.ty = t) :
    ∃ w, zip3 f a b c = some w ∧ w.ty = t := by
  obtain ⟨m, hm⟩ := Option.isSome_iff_exists.1 ht
  have one := Ty.lanes?_le hm
  have width := Ty.ofLanes?_lanes? hm color
  have lanes {v : Value} (h : v.ty = t ∨ v.ty = .float) :
      ∃ k, v.ty.lanes? = some k ∧ (k = m ∨ k = 1) ∧ (v.ty = t → k = m) := by
    by_cases same : v.ty = t
    · exact ⟨m, same ▸ hm, .inl rfl, fun _ => rfl⟩
    · exact ⟨1, by rw [h.resolve_left same]; rfl, .inr rfl, fun h => absurd h same⟩
  obtain ⟨i, hi, wi, ei⟩ := lanes ha
  obtain ⟨j, hj, wj, ej⟩ := lanes hb
  obtain ⟨k, hk, wk, ek⟩ := lanes hc
  have most : m = max (max i j) k := by
    rcases widest with h | h | h
    · have := ei h; omega
    · have := ej h; omega
    · have := ek h; omega
  exact zip3_of_ty f hi hj hk most (by omega) (by omega) (by omega) width

end Value

namespace Builtin

/-- Functions that ask the host. -/
def asksHost : Builtin → Bool
  | destCoord | samplerCoord | samplerTransform | samplerOrigin | samplerSize | samplerExtent
  | sample | emit => true
  | _ => false

theorem unitVector_of_ty {v : Value} (h : v.ty.lanes?.isSome) :
    ∃ w, unitVector v = some w ∧ w.ty = v.ty := by
  obtain ⟨x, hx⟩ := Value.dot_of_ty h h
  unfold unitVector
  rw [hx]
  dsimp only [Option.bind_eq_bind, Option.bind_some]
  split
  · exact Value.map_of_ty _ h
  · exact Value.map_of_ty _ h

/-- How many arguments a function takes. -/
def arity : Builtin → Nat
  | destCoord => 0
  | atan2 | pow | mod | min | max | step | distance | dot | cross | sample | samplerTransform => 2
  | clamp | mix | smoothstep | compare => 3
  | _ => 1

theorem length_of_result? {b : Builtin} {ts : List Ty} {t : Ty} (h : b.result? ts = some t) :
    ts.length = b.arity := by
  unfold result? at h
  split at h <;> first | rfl | cases h

/-- A function that resolution found for the types of its arguments has a value for them. -/
theorem evaluate?_of_ty {b : Builtin} {vs : List Value} {t : Ty} (own : b.asksHost = false)
    (h : b.result? (vs.map Value.ty) = some t) : ∃ v, b.evaluate? vs = some v ∧ v.ty = t := by
  have taken : vs.length = b.arity := by rw [← length_of_result? h, List.length_map]
  cases b with
  | radians | degrees | sin | cos | tan | asin | acos | atan | exp | log | exp2 | log2 | sqrt
  | inversesqrt | abs | sign | floor | ceil | fract =>
      obtain ⟨x, rfl⟩ := List.length_eq_one_iff.1 taken
      obtain ⟨lanes, ⟨⟩⟩ := Option.ite_none_right_eq_some.1 h
      exact Value.map_of_ty _ lanes
  | normalize =>
      obtain ⟨x, rfl⟩ := List.length_eq_one_iff.1 taken
      obtain ⟨lanes, ⟨⟩⟩ := Option.ite_none_right_eq_some.1 h
      exact unitVector_of_ty lanes
  | atan2 | pow =>
      obtain ⟨x, y, rfl⟩ := List.length_eq_two.1 taken
      obtain ⟨c, ⟨⟩⟩ := Option.ite_none_right_eq_some.1 h
      simp only [Bool.and_eq_true, decide_eq_true_eq] at c
      exact Value.zip_of_eq_or_float _ c.1 (.inl c.2.symm)
  | mod | min | max =>
      obtain ⟨x, y, rfl⟩ := List.length_eq_two.1 taken
      obtain ⟨c, ⟨⟩⟩ := Option.ite_none_right_eq_some.1 h
      simp only [Bool.and_eq_true, Bool.or_eq_true, decide_eq_true_eq] at c
      exact Value.zip_of_eq_or_float _ c.1 (c.2.imp_left Eq.symm)
  | step =>
      obtain ⟨e, x, rfl⟩ := List.length_eq_two.1 taken
      obtain ⟨c, ⟨⟩⟩ := Option.ite_none_right_eq_some.1 h
      simp only [Bool.and_eq_true, Bool.or_eq_true, decide_eq_true_eq] at c
      exact Value.zip_of_float_or_eq _ c.1 c.2
  | clamp =>
      obtain ⟨x, lo, hi, rfl⟩ := List.length_eq_three.1 taken
      obtain ⟨c, ⟨⟩⟩ := Option.ite_none_right_eq_some.1 h
      simp only [Bool.and_eq_true, Bool.or_eq_true, decide_eq_true_eq] at c
      have low : hi.ty = x.ty ∨ hi.ty = .float := by rw [← c.1.2]; exact c.2
      rw [evaluate?]
      exact Value.zip3_of_eq_or_float _ c.1.1 x.ty_ne_color (.inl rfl) c.2 low (.inl rfl)
  | smoothstep =>
      obtain ⟨lo, hi, x, rfl⟩ := List.length_eq_three.1 taken
      obtain ⟨c, ⟨⟩⟩ := Option.ite_none_right_eq_some.1 h
      simp only [Bool.and_eq_true, Bool.or_eq_true, decide_eq_true_eq] at c
      have high : hi.ty = x.ty ∨ hi.ty = .float := by rw [← c.1.2]; exact c.2
      rw [evaluate?]
      exact Value.zip3_of_eq_or_float _ c.1.1 x.ty_ne_color c.2 high (.inl rfl) (.inr (.inr rfl))
  | mix =>
      obtain ⟨x, y, t, rfl⟩ := List.length_eq_three.1 taken
      obtain ⟨c, ⟨⟩⟩ := Option.ite_none_right_eq_some.1 h
      simp only [Bool.and_eq_true, Bool.or_eq_true, decide_eq_true_eq] at c
      rw [evaluate?]
      exact Value.zip3_of_eq_or_float _ c.1.1 x.ty_ne_color (.inl rfl) (.inl c.1.2.symm) c.2
        (.inl rfl)
  | compare =>
      obtain ⟨x, y, z, rfl⟩ := List.length_eq_three.1 taken
      obtain ⟨c, ⟨⟩⟩ := Option.ite_none_right_eq_some.1 h
      simp only [Bool.and_eq_true, decide_eq_true_eq] at c
      rw [evaluate?]
      exact Value.zip3_of_eq_or_float _ c.1.1 x.ty_ne_color (.inl rfl) (.inl c.1.2.symm)
        (.inl (c.1.2.trans c.2).symm) (.inl rfl)
  | length =>
      obtain ⟨x, rfl⟩ := List.length_eq_one_iff.1 taken
      obtain ⟨lanes, ⟨⟩⟩ := Option.ite_none_right_eq_some.1 h
      obtain ⟨d, hd⟩ := Value.dot_of_ty lanes lanes
      exact ⟨.float d.sqrt, by rw [evaluate?, hd]; rfl, rfl⟩
  | distance =>
      obtain ⟨x, y, rfl⟩ := List.length_eq_two.1 taken
      obtain ⟨c, ⟨⟩⟩ := Option.ite_none_right_eq_some.1 h
      simp only [Bool.and_eq_true, decide_eq_true_eq] at c
      obtain ⟨v, hv, vt⟩ := Value.zip_of_eq_or_float (· - ·) c.1 (.inl c.2.symm)
      obtain ⟨d, hd⟩ := Value.dot_of_ty (a := v) (b := v) (vt ▸ c.1) (vt ▸ c.1)
      exact ⟨.float d.sqrt, by simp [evaluate?, hv, hd], rfl⟩
  | dot =>
      obtain ⟨x, y, rfl⟩ := List.length_eq_two.1 taken
      obtain ⟨c, ⟨⟩⟩ := Option.ite_none_right_eq_some.1 h
      simp only [Bool.and_eq_true, decide_eq_true_eq] at c
      obtain ⟨d, hd⟩ := Value.dot_of_ty c.1 (c.2 ▸ c.1)
      exact ⟨.float d, by rw [evaluate?, hd]; rfl, rfl⟩
  | sincos | cossin | premultiply | unpremultiply =>
      obtain ⟨x, rfl⟩ := List.length_eq_one_iff.1 taken
      cases x <;> cases h
      exact ⟨_, rfl, rfl⟩
  | cross =>
      obtain ⟨x, y, rfl⟩ := List.length_eq_two.1 taken
      cases x <;> cases y <;> cases h
      exact ⟨_, rfl, rfl⟩
  | destCoord | samplerCoord | samplerTransform | samplerOrigin | samplerSize | samplerExtent
  | sample | emit => cases own

theorem result?_of_resolve? {name : String} {ts : List Ty} {b : Builtin} {t : Ty}
    (h : resolve? name ts = some (b, t)) : b.result? ts = some t := by
  obtain ⟨b', -, hb⟩ := List.exists_of_findSome?_eq_some h
  obtain ⟨t', ht, ⟨⟩⟩ := Option.map_eq_some_iff.1 hb
  exact ht

theorem void_not_mem_of_result? {b : Builtin} {ts : List Ty} {t : Ty}
    (h : b.result? ts = some t) : .void ∉ ts := by
  intro mem
  have none_ : isFloats .void = false := rfl
  unfold result? at h
  split at h <;> grind

end Builtin

/-- The host refused a request with `t` and was left in state `s'`. -/
inductive Host.Refuses {σ : Type} (host : Host σ) (t : Trap) (s' : σ) : Prop where
  | sample {k p s} (h : host.sample k p s = (.error t, s'))
  | emit {c s} (h : host.emit c s = (.error t, s'))

/-- A value of the given type; of `void` there is none. -/
def HasTy (r : Option Value) (t : Ty) : Prop :=
  match r with
  | none => t = .void
  | some v => v.ty = t

namespace Machine

/-- A builtin found by its overloads gives a value of its type or passes on what the host
    refused. -/
theorem callBuiltin_of_ty {σ : Type} (host : Host σ) {b : Builtin} {args : List Value} {t : Ty}
    (h : b.result? (args.map Value.ty) = some t) (s : σ) :
    (∃ r s', callBuiltin host b args s = (.ok r, s') ∧ HasTy r t) ∨
      ∃ e s', callBuiltin host b args s = (.error e, s') ∧ host.Refuses e s' := by
  cases own : b.asksHost with
  | false =>
      obtain ⟨v, hv, ht⟩ := Builtin.evaluate?_of_ty own h
      refine .inl ⟨some v, s, ?_, ht⟩
      unfold callBuiltin
      split
      case h_9 => rw [hv]
      all_goals cases own
  | true =>
      have taken : args.length = b.arity := by rw [← Builtin.length_of_result? h, List.length_map]
      cases b with
      | destCoord =>
          obtain rfl := List.length_eq_zero_iff.1 taken
          cases h
          exact .inl ⟨_, _, rfl, rfl⟩
      | samplerCoord | samplerOrigin | samplerSize | samplerExtent =>
          obtain ⟨k, rfl⟩ := List.length_eq_one_iff.1 taken
          cases k <;> cases h
          exact .inl ⟨_, _, rfl, rfl⟩
      | samplerTransform =>
          obtain ⟨k, p, rfl⟩ := List.length_eq_two.1 taken
          cases k <;> cases p <;> cases h
          exact .inl ⟨_, _, rfl, rfl⟩
      | sample =>
          obtain ⟨k, p, rfl⟩ := List.length_eq_two.1 taken
          cases k <;> cases p <;> cases h
          next k x y =>
          rcases hc : host.sample k (x, y) s with ⟨c | c, s'⟩
          · exact .inr ⟨c, s', by simp [callBuiltin, Value.sampler?, Value.point?, hc], .sample hc⟩
          · exact .inl ⟨some (.ofColour c), s',
              by simp [callBuiltin, Value.sampler?, Value.point?, hc], rfl⟩
      | emit =>
          obtain ⟨c, rfl⟩ := List.length_eq_one_iff.1 taken
          cases c <;> cases h
          next x y z w =>
          rcases hc : host.emit ⟨x, y, z, w⟩ s with ⟨e | e, s'⟩
          · exact .inr ⟨e, s', by simp [callBuiltin, Value.colour?, hc], .emit hc⟩
          · exact .inl ⟨none, s', by simp [callBuiltin, Value.colour?, hc], rfl⟩
      | _ => cases own

end Machine
end PixelKernel.Language
