import PixelKernel.Proofs.Code.Pool
import PixelKernel.Proofs.Code.Translation

/-! # Drafts

A walk that succeeds is taken apart into its steps, and its steps only add to the draft: no
constant and no slot is given up again.
-/

namespace PixelKernel.Language

open Unsigned

namespace Lower

variable {α β : Type} {d d' : Draft}

/-! ## Walks that succeed -/

theorem bind_eq_ok {m : Lower α} {k : α → Lower β} {b : β} : (m >>= k) d = .ok (b, d') ↔
    ∃ a d₁, m d = .ok (a, d₁) ∧ k a d₁ = .ok (b, d') := by
  change (StateT.bind m k) d = _ ↔ _
  unfold StateT.bind
  rcases m d with e | ⟨a, d₁⟩
  · simp [bind, Except.bind]
  · simp [bind, Except.bind]

theorem pure_eq_ok {a b : α} : (pure a : Lower α) d = .ok (b, d') ↔ a = b ∧ d = d' := by
  change Except.ok (a, d) = _ ↔ _
  simp

theorem complain_ne_ok {pos : Nat} {cause : Cause} {a : α} :
    (complain pos cause : Lower α) d ≠ .ok (a, d') := nofun

theorem liftCause_eq_ok {pos : Nat} {r : Except Cause α} {a : α} :
    liftCause pos r d = .ok (a, d') ↔ r = .ok a ∧ d = d' := by
  cases r with
  | error => exact ⟨nofun, nofun⟩
  | ok => rw [liftCause, pure_eq_ok]; simp

theorem liftM_eq_ok {r : Except Complaint α} {a : α} :
    (liftM r : Lower α) d = .ok (a, d') ↔ r = .ok a ∧ d = d' := by
  cases r with
  | error => exact ⟨nofun, nofun⟩
  | ok r =>
      change Except.ok (r, d) = _ ↔ _
      simp

theorem get_eq_ok {a : Draft} : (get : Lower Draft) d = .ok (a, d') ↔ d = a ∧ d = d' := by
  change Except.ok (d, d) = _ ↔ _
  simp

theorem set_eq_ok {a : Draft} {u : PUnit} : (set a : Lower PUnit) d = .ok (u, d') ↔ a = d' := by
  change Except.ok (PUnit.unit, a) = _ ↔ _
  simp

theorem modify_eq_ok {f : Draft → Draft} {u : PUnit} :
    (modify f : Lower PUnit) d = .ok (u, d') ↔ f d = d' := by
  change Except.ok (PUnit.unit, f d) = _ ↔ _
  simp

/-- A check in front of a walk that goes on. -/
theorem check_eq_ok {c : Prop} [Decidable c] {pos : Nat} {cause : Cause} {m : Lower α} {a : α} :
    (if c then (complain pos cause : Lower PUnit) >>= fun _ => m else m) d = .ok (a, d') ↔
      ¬c ∧ m d = .ok (a, d') := by
  split
  next h => exact ⟨nofun, fun g => absurd h g.1⟩
  next h => exact ⟨fun g => ⟨h, g⟩, fun g => g.2⟩

/-! ## Growth -/

/-- An expression adds constants to the draft and nothing else. -/
structure Grows (d d' : Draft) : Prop where
  pool : Pool d'.consts
  consts : d.consts.toList <+: d'.consts.toList
  scopes : d'.scopes = d.scopes
  locals : d'.locals = d.locals

namespace Grows

theorem refl (h : Pool d.consts) : Grows d d := ⟨h, List.prefix_refl _, rfl, rfl⟩

theorem trans {d₁ : Draft} (h : Grows d d₁) (h' : Grows d₁ d') : Grows d d' :=
  ⟨h'.pool, h.consts.trans h'.consts, h'.scopes.trans h.scopes, h'.locals.trans h.locals⟩

end Grows

/-- A constant gets an index at which the pool holds it, from now on. -/
theorem constant_eq_ok {v : Value} {o : Op} (pool : Pool d.consts) (hv : Constant v)
    (h : constant v d = .ok (o, d')) :
    Grows d d' ∧ ∃ i, o = .const i ∧ d'.consts[i.toNat]? = some v := by
  unfold constant at h
  simp only [bind_eq_ok, get_eq_ok] at h
  obtain ⟨_, _, ⟨rfl, rfl⟩, h⟩ := h
  cases known : d.consts.findIdx? (·.same v) with
  | some i =>
    rw [known] at h
    obtain ⟨rfl, rfl⟩ := pure_eq_ok.1 h
    obtain ⟨inside, same, -⟩ := Array.findIdx?_eq_some_iff_getElem.1 known
    have eq := (Constant.same_iff (pool.constant _ (Array.getElem_mem inside)) hv).1 same
    have word : (UInt32.ofNat i).toNat = i := UInt32.toNat_ofNat_of_lt' (by
      have := pool.size_le
      change i < 2 ^ 32
      omega)
    exact ⟨.refl pool, _, rfl, by rw [word, Array.getElem?_eq_getElem inside, eq]⟩
  | none =>
    rw [known] at h
    simp only [bind_eq_ok, set_eq_ok, pure_eq_ok] at h
    obtain ⟨_, _, rfl, rfl, rfl⟩ := h
    have fresh : v ∉ d.consts := fun there => by
      have differs := Array.findIdx?_eq_none_iff.1 known v there
      rw [(Constant.same_iff hv hv).2 rfl] at differs
      cases differs
    have pool' := pool.push hv fresh
    have word : (UInt32.ofNat d.consts.size).toNat = d.consts.size :=
      UInt32.toNat_ofNat_of_lt' (by
        have := pool'.size_le
        rw [Array.size_push] at this
        exact this)
    refine ⟨⟨pool', ?_, rfl, rfl⟩, _, rfl, by rw [word]; simp⟩
    rw [Array.toList_push]
    exact List.prefix_append ..

end Lower
end PixelKernel.Language
