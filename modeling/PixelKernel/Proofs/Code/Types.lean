import PixelKernel.Proofs.Code.Translation
import PixelKernel.Proofs.Code.Places

/-! # Types of trees and of their code

The type that lowering found for an expression is the type that its tree says.
-/

namespace PixelKernel.Language

open Meaning (typeOf? typesOf? arithTy? callTy? widenTy)

variable {site : Site} {scopes : List Scope}

/-- Types of the variables in scope. -/
def typesIn (scopes : List Scope) (name : String) : Option Ty :=
  (Lower.find? scopes name).map (·.ty.operand)

theorem arithTy?_eq (l r : Ty) :
    arithTy? l r = Lower.arithResult? (Lower.promote l r).2.1 (Lower.promote l r).2.2 := by
  cases l <;> cases r <;> rfl

theorem Joins.eq {s t r : Ty} (h : Joins s t r) :
    (if s = .int ∧ t = .float then Ty.float else s) = r := by
  obtain ⟨left, right, one, -⟩ := h
  split
  next mixed =>
    rcases right with rfl | ⟨rfl, rfl⟩
    · exact mixed.2.symm
    · rfl
  next alike =>
    rcases one with rfl | rfl
    · rfl
    · rcases left with rfl | mixed
      · rfl
      · exact absurd mixed alike

theorem Ty.operand_of_isOrdered {t : Ty} (h : t.isOrdered = true) : t.operand = t := by
  cases t <;> first | rfl | cases h

/-- Comparisons are bools. -/
theorem compare_ty {op : OrderOp} {l r t : Ty} {o : Op}
    (h : Lower.operator? (.order op) l r = some (o, t)) : t = .bool := by
  unfold Lower.operator? at h
  dsimp only at h
  split at h
  all_goals
    obtain ⟨-, ⟨⟩⟩ := Option.ite_none_right_eq_some.1 h
    rfl

theorem finishVector_ty {name : String} {width : Nat} {wanted : List Ty} {o : Op} {t : Ty}
    (named : Lower.vectorWidth? name = some width)
    (h : Lower.finishVector name width wanted = .ok (o, t)) : Ty.ofLanes? width = some t := by
  unfold Lower.finishVector at h
  dsimp only at h
  split at h
  · cases h
  · cases h
    unfold Lower.vectorWidth? at named
    split at named <;> cases named <;> rfl

theorem CallAt.callTy?_eq {pc : Nat} {name : String} {found wanted : List Ty} {t : Ty}
    (h : CallAt site pc name found wanted t) : callTy? site.module name found = some t := by
  unfold callTy?
  cases h with
  | function named => rw [named]
  | conversion unnamed named =>
      rw [unnamed]
      unfold Lower.conversion? at named
      split at named <;> cases named <;> rfl
  | vector unnamed notConversion named _ _ result =>
      rw [unnamed, named]
      dsimp only
      split
      · cases notConversion
      · cases notConversion
      · cases notConversion
      · exact finishVector_ty named result
  | builtin unnamed notConversion notVector _ named =>
      rw [unnamed, notVector]
      dsimp only
      split
      · cases notConversion
      · cases notConversion
      · cases notConversion
      · change (Builtin.resolve? name (found.map widenTy)).map (·.2) = _
        rw [show found.map widenTy = found.map fun t => if t = .int then .float else t from rfl,
          named]
        rfl

theorem Lower.literal_eq_ok {l : Literal} {v : Value} (h : Lower.literal l = .ok v) :
    Meaning.literal l = v ∧ Meaning.literalTy l = v.ty := by
  cases l with
  | int n =>
      unfold Lower.literal at h
      dsimp only at h
      split at h <;> cases h
      exact ⟨rfl, rfl⟩
  | float x => cases h; exact ⟨rfl, rfl⟩
  | bool b => cases h; exact ⟨rfl, rfl⟩

theorem Meaning.length_of_lanes? {fields : String} {lanes : Selection}
    (h : Meaning.lanes? fields = some lanes) : lanes.length = fields.length := by
  rw [← String.length_toList]
  unfold Meaning.lanes? at h
  generalize fields.toList = cs at h
  induction cs generalizing lanes with
  | nil => cases h; rfl
  | cons c cs ih =>
      rw [List.mapM_cons] at h
      obtain ⟨i, -, h⟩ := Option.bind_eq_some_iff.1 h
      obtain ⟨rest, others, ⟨⟩⟩ := Option.bind_eq_some_iff.1 h
      rw [List.length_cons, List.length_cons, ih others]

theorem Lower.PlaceOf.typeOf?_eq {e : Expr} {p : Place} {name : String}
    (h : PlaceOf scopes e p name) : typeOf? site.module (typesIn scopes) e = some p.ty := by
  obtain ⟨x, lanes⟩ := p
  obtain ⟨found, means, -, inside⟩ := h
  unfold Meaning.place? at means
  split at means
  next =>
    cases means
    rw [typeOf?, typesIn, found]
    rfl
  next =>
    obtain ⟨ls, named, ⟨⟩⟩ := Option.map_eq_some_iff.1 means
    obtain ⟨-, -, -, typed⟩ := inside ls rfl
    rw [typeOf?, ← Meaning.length_of_lanes? named, typed]
  next => cases means

mutual

theorem ExprAt.typeOf?_eq {pc pc' : Nat} {e : Expr} {t : Ty} (h : ExprAt site scopes pc e t pc') :
    typeOf? site.module (typesIn scopes) e = some t := by
  cases h with
  | lit value => rw [typeOf?, (Lower.literal_eq_ok value).2]
  | var found => rw [typeOf?, typesIn, found]; rfl
  | unary operand => rw [typeOf?, operand.typeOf?_eq]
  | logic => rfl
  | @binary _ _ op _ _ _ _ _ _ _ _ _ left right _ typed =>
      cases op with
      | arith op =>
          obtain ⟨r, result, ⟨⟩⟩ := Option.map_eq_some_iff.1 typed
          rw [typeOf?, left.typeOf?_eq, right.typeOf?_eq]
          exact (arithTy?_eq ..).trans result
      | order op =>
          rw [typeOf?, (compare_ty typed)]
          nofun
      | logic op => cases typed
  | ternary _ _ yes _ _ no _ _ joined =>
      rw [typeOf?, yes.typeOf?_eq, no.typeOf?_eq]
      exact congrArg some joined.eq
  | call args call =>
      rw [typeOf?, args.typesOf?_eq]
      exact call.callTy?_eq
  | select base vector read typed =>
      obtain ⟨named, -⟩ := Lower.selection_eq_ok read
      rw [typeOf?, ← Meaning.length_of_lanes? named, typed]
  | assign goal | combine goal =>
      obtain ⟨name, place⟩ := Lower.place_eq_ok goal
      rw [typeOf?, place.typeOf?_eq]
  | @step _ _ _ _ _ x _ _ goal ordered =>
      obtain ⟨name, place⟩ := Lower.place_eq_ok goal
      rw [typeOf?, place.typeOf?_eq]
      exact congrArg some (Ty.operand_of_isOrdered ordered)

theorem ArgsAt.typesOf?_eq {pc pc' : Nat} {es : List Expr} {found wanted : List Ty}
    (h : ArgsAt site scopes pc es found wanted pc') :
    typesOf? site.module (typesIn scopes) es = some found := by
  cases h with
  | nil => rfl
  | cons head _ tail => rw [typesOf?, head.typeOf?_eq, tail.typesOf?_eq]; rfl

end

end PixelKernel.Language
