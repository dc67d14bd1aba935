import PixelKernel.Proofs.Code.Translation
import PixelKernel.Proofs.Meaning.Evaluation
import PixelKernel.Proofs.Machine.Values

/-! # Variables and their slots

While a function runs, each variable in scope has its value in a slot of its own. Scopes of
the code and of the tree are opened, filled and closed together.
-/

namespace PixelKernel.Language

open Meaning (Env Variable)

/-- A variable in scope has its value in its slot. -/
structure Holds (slots : Array Value) (x : Local) (v : Variable) : Prop where
  ty : v.ty = x.ty
  slot : slots[x.slot.toNat]? = some v.value
  typed : v.value.ty = x.ty.operand

def ScopeHolds (slots : Array Value) (scope : Scope) (vars : List (String × Variable)) : Prop :=
  ∀ name : String, Option.Rel (Holds slots) scope[name]? (vars.lookup name)

/-- No two variables in scope have one slot. -/
def Apart : List Scope → Prop
  | [] => True
  | scope :: outer =>
    (∀ (m n : String) x y, scope[m]? = some x → scope[n]? = some y → x.slot = y.slot → m = n) ∧
      (∀ other ∈ outer, ∀ (m n : String) x y, scope[m]? = some x → other[n]? = some y →
        x.slot ≠ y.slot) ∧ Apart outer

/-- The scopes of a tree, the scopes its code was made with, and the slots say the same. -/
structure Mirrors (slots : Array Value) (scopes : List Scope) (env : Env) : Prop where
  held : List.Forall₂ (ScopeHolds slots) scopes env
  apart : Apart scopes

variable {slots : Array Value} {scopes : List Scope} {env : Env} {name : String}

theorem rel_cases {α β : Type} {R : α → β → Prop} {a : Option α} {b : Option β}
    (h : Option.Rel R a b) : (a = none ∧ b = none) ∨ ∃ x y, a = some x ∧ b = some y ∧ R x y := by
  cases h with
  | none => exact .inl ⟨rfl, rfl⟩
  | some h => exact .inr ⟨_, _, rfl, rfl, h⟩

theorem find?_cons (scope : Scope) (scopes : List Scope) (name : String) :
    Lower.find? (scope :: scopes) name = (scope[name]?).or (Lower.find? scopes name) := by
  unfold Lower.find?
  rw [List.findSome?_cons]
  cases scope[name]? <;> rfl

theorem env_find?_cons (vars : List (String × Variable)) (env : Env) (name : String) :
    Env.find? (vars :: env) name = (vars.lookup name).or (env.find? name) := by
  unfold Env.find?
  rw [List.findSome?_cons]
  cases vars.lookup name <;> rfl

theorem find?_rel (h : List.Forall₂ (ScopeHolds slots) scopes env) (name : String) :
    Option.Rel (Holds slots) (Lower.find? scopes name) (env.find? name) := by
  induction h with
  | nil => exact .none
  | cons head _ ih =>
      rw [find?_cons, env_find?_cons]
      rcases rel_cases (head name) with ⟨l, r⟩ | ⟨x, v, l, r, held⟩
      · rw [l, r]
        exact ih
      · rw [l, r]
        exact .some held

namespace Mirrors

/-- A variable that the code finds is the one that the tree finds. -/
theorem find (h : Mirrors slots scopes env) {x : Local}
    (found : Lower.find? scopes name = some x) :
    ∃ v, env.find? name = some v ∧ Holds slots x v := by
  rcases rel_cases (find?_rel h.held name) with ⟨l, r⟩ | ⟨y, v, l, r, held⟩
  · rw [l] at found
    cases found
  · rw [l] at found
    cases found
    exact ⟨v, r, held⟩

theorem ty?_eq (h : Mirrors slots scopes env) (name : String) :
    env.ty? name = (Lower.find? scopes name).map (·.ty.operand) := by
  unfold Env.ty?
  rcases rel_cases (find?_rel h.held name) with ⟨l, r⟩ | ⟨y, v, l, r, held⟩
  · rw [l, r]
    rfl
  · rw [l, r, Option.map_some, Option.map_some, held.ty]

theorem enter (h : Mirrors slots scopes env) : Mirrors slots (∅ :: scopes) ([] :: env) where
  held := by
    refine .cons (fun name => ?_) h.held
    rw [show (∅ : Scope)[name]? = none by simp]
    exact .none
  apart := ⟨by simp, by simp, h.apart⟩

theorem leave (h : Mirrors slots scopes env) : Mirrors slots scopes.tail env.tail := by
  obtain ⟨held, apart⟩ := h
  cases held with
  | nil => exact ⟨.nil, trivial⟩
  | cons _ rest => exact ⟨rest, apart.2.2⟩

end Mirrors

/-! ## Writing -/

theorem Holds.frame {x y : Local} {v : Variable} (h : Holds slots y v) (w : Value)
    (other : x.slot ≠ y.slot) : Holds (slots.set! x.slot.toNat w) y v where
  ty := h.ty
  typed := h.typed
  slot := by
    have apart : x.slot.toNat ≠ y.slot.toNat := fun same => other (UInt16.toNat_inj.1 same)
    rw [Array.set!_eq_setIfInBounds, Array.getElem?_setIfInBounds_ne apart, h.slot]

theorem ScopeHolds.frame {scope : Scope} {vars : List (String × Variable)} {x : Local}
    (h : ScopeHolds slots scope vars) (w : Value)
    (other : ∀ (n : String) y, scope[n]? = some y → x.slot ≠ y.slot) :
    ScopeHolds (slots.set! x.slot.toNat w) scope vars := by
  intro n
  rcases rel_cases (h n) with ⟨l, r⟩ | ⟨y, v, l, r, held⟩
  · rw [l, r]
    exact .none
  · rw [l, r]
    exact .some (held.frame w (other n y l))

theorem frame_all {x : Local} (h : List.Forall₂ (ScopeHolds slots) scopes env) (w : Value)
    (other : ∀ scope ∈ scopes, ∀ (n : String) y, scope[n]? = some y → x.slot ≠ y.slot) :
    List.Forall₂ (ScopeHolds (slots.set! x.slot.toNat w)) scopes env := by
  induction h with
  | nil => exact .nil
  | cons head _ ih =>
      rw [List.forall_mem_cons] at other
      exact .cons (head.frame w other.1) (ih other.2)

/-- A variable that is written has the new value in its slot. -/
theorem Holds.write {x : Local} {v : Variable} (h : Holds slots x v) {w : Value}
    (typed : w.ty = x.ty.operand) :
    Holds (slots.set! x.slot.toNat w) x { v with value := w } where
  ty := h.ty
  typed := typed
  slot := by
    have inside := (Array.getElem?_eq_some_iff.1 h.slot).1
    rw [Array.set!_eq_setIfInBounds, Array.getElem?_setIfInBounds_self_of_lt inside]

theorem lookup_assignIn (name : String) (w : Value) (vars : List (String × Variable))
    (n : String) : (Env.assignIn name w vars).lookup n =
      if n = name then (vars.lookup n).map ({ · with value := w }) else vars.lookup n := by
  induction vars with
  | nil => simp [Env.assignIn]
  | cons first rest ih =>
      obtain ⟨m, v⟩ := first
      unfold Env.assignIn
      by_cases here : name = m
      · subst here
        rw [if_pos (beq_self_eq_true name), List.lookup_cons, List.lookup_cons]
        by_cases same : n = name
        · simp [same]
        · simp [same, beq_eq_false_iff_ne.2 same]
      · rw [if_neg (by simpa using here), List.lookup_cons, List.lookup_cons, ih]
        by_cases same : n = m
        · subst same
          simp [Ne.symm here]
        · simp only [beq_eq_false_iff_ne.2 same]

theorem insert_cases {scope : Scope} {m : String} {x y : Local}
    (h : (scope.insert name x)[m]? = some y) : (m = name ∧ y = x) ∨ scope[m]? = some y := by
  rw [Std.TreeMap.getElem?_insert] at h
  split at h
  next same =>
    cases h
    exact .inl ⟨(Std.LawfulEqCmp.compare_eq_iff_eq.1 same).symm, rfl⟩
  next => exact .inr h

namespace Mirrors

/-- Assignment in the tree is a store in the code. -/
theorem assign (h : Mirrors slots scopes env) {x : Local} {w : Value}
    (found : Lower.find? scopes name = some x) (typed : w.ty = x.ty.operand) :
    Mirrors (slots.set! x.slot.toNat w) scopes (env.assign name w) := by
  obtain ⟨held, apart⟩ := h
  refine ⟨?_, apart⟩
  induction held with
  | nil => cases found
  | @cons scope vars scopes env head tail ih =>
      obtain ⟨alone, across, apart⟩ := apart
      rw [find?_cons] at found
      unfold Env.assign
      rcases rel_cases (head name) with ⟨l, r⟩ | ⟨y, v, l, r, there⟩
      · rw [l, Option.none_or] at found
        rw [r, Option.isSome_none, if_neg nofun]
        refine .cons (head.frame w fun n y hy same => ?_) (ih found apart)
        obtain ⟨other, mem, here⟩ := List.exists_of_findSome?_eq_some found
        exact across other mem n name y x hy here same.symm
      · rw [l, Option.some_or] at found
        cases found
        rw [r, Option.isSome_some, if_pos rfl]
        refine .cons (fun n => ?_) (frame_all tail w fun other mem n z hz =>
          across other mem name n x z l hz)
        rw [lookup_assignIn]
        by_cases same : n = name
        · subst same
          rw [l, r, if_pos rfl]
          exact .some (there.write typed)
        · rw [if_neg same]
          rcases rel_cases (head n) with ⟨l', r'⟩ | ⟨z, u, l', r', other⟩
          · rw [l', r']
            exact .none
          · rw [l', r']
            exact .some (other.frame w fun eq => same (alone name n x z l l' eq).symm)

/-- A declaration in the tree is a store into a fresh slot. -/
theorem declare (h : Mirrors slots scopes env) {n : Nat} {x : Local} {scopes' : List Scope}
    {w : Value} (size : slots.size = n) (declared : Declared n scopes name x scopes')
    (typed : w.ty = x.ty.operand) :
    Mirrors (slots.set! x.slot.toNat w) scopes' (env.declare name ⟨x.ty, w⟩) := by
  obtain ⟨⟨scope, outer, rfl, rfl, new⟩, fresh, room⟩ := declared
  have others := frame_all h.held w fun sc mem n y hy => (fresh sc mem n y hy).symm
  obtain ⟨-, alone, across, apart⟩ := h
  cases others with
  | @cons _ vars _ env head tail =>
  refine ⟨.cons (fun m => ?_) tail, ?_, ?_, apart⟩
  · rw [Std.TreeMap.getElem?_insert, List.lookup_cons]
    by_cases same : m = name
    · subst same
      simp only [Std.ReflCmp.compare_self, if_true, beq_self_eq_true]
      refine .some ⟨rfl, ?_, typed⟩
      rw [Array.set!_eq_setIfInBounds, Array.getElem?_setIfInBounds_self_of_lt (size ▸ room)]
    · simp only [Std.LawfulEqCmp.compare_eq_iff_eq, Ne.symm same, if_false,
        beq_eq_false_iff_ne.2 same]
      exact head m
  · intro m m' a b ha hb same
    rcases insert_cases ha with ⟨rfl, rfl⟩ | oldA
    · rcases insert_cases hb with ⟨rfl, rfl⟩ | oldB
      · rfl
      · exact absurd same.symm (fresh scope List.mem_cons_self _ _ oldB)
    · rcases insert_cases hb with ⟨rfl, rfl⟩ | oldB
      · exact absurd same (fresh scope List.mem_cons_self _ _ oldA)
      · exact alone m m' a b oldA oldB same
  · intro other mem m m' a b ha hb
    rcases insert_cases ha with ⟨rfl, rfl⟩ | oldA
    · exact (fresh other (List.mem_cons_of_mem _ mem) _ _ hb).symm
    · exact across other mem m m' a b oldA hb

end Mirrors

end PixelKernel.Language
