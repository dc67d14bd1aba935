import PixelKernel.Fault
import PixelKernel.Proofs.Geometry.Cover

/-! # Maps that are edited

A map is edited step by step. In exact arithmetic the map that comes of it moves points as the
composition of the steps does: what is appended acts after the map so far and what is prepended
before it, and inverting puts the two-sided inverse in its place. Only inverting can be refused,
and then the map stays as it was.
-/

namespace PixelKernel.Affine

/-- An edit of a map. A rotation is given by the sine and the cosine of its angle; any two numbers
    will do. -/
inductive Edit (κ : Type) where
  | scale (sx sy : κ)
  | translate (tx ty : κ)
  | rotate (sin cos : κ)
  | append (other : Affine κ)
  | prepend (other : Affine κ)
  | invert

section

variable {κ : Type} [Scalar κ]

/-- The inverse map, or what is said of a map that has none. -/
def inverse (t : Affine κ) : Except Fault (Affine κ) :=
  match t.inverse? with
  | some inverse => .ok inverse
  | none => .error (.singularTransform t.singularText)

/-- What an edit of a map answers, and the map that it leaves. -/
def Edit.perform (t : Affine κ) : Edit κ → Except Fault Unit × Affine κ
  | scale sx sy => (.ok (), t.scale sx sy)
  | translate tx ty => (.ok (), t.translate tx ty)
  | rotate sin cos => (.ok (), t.append (rotation sin cos))
  | append other => (.ok (), t.append other)
  | prepend other => (.ok (), t.prepend other)
  | invert =>
    match t.inverse with
    | .ok inverse => (.ok (), inverse)
    | .error fault => (.error fault, t)

/-- The map that edits leave, one after the other. -/
def edited (t : Affine κ) (edits : List (Edit κ)) : Affine κ :=
  edits.foldl (fun t edit => (edit.perform t).2) t

/-- The edits with their answers. -/
def trace (t : Affine κ) : List (Edit κ) → List (Edit κ × Except Fault Unit)
  | [] => []
  | edit :: rest => (edit, (edit.perform t).1) :: trace (edit.perform t).2 rest

end

/-! ## Moving points -/

/-- What becomes of a way to move points by an edit of it. -/
inductive Edit.Turns : Edit Rat → (Point Rat → Point Rat) → (Point Rat → Point Rat) → Prop where
  | scale {sx sy f} : Turns (.scale sx sy) f fun p => ⟨sx * (f p).x, sy * (f p).y⟩
  | translate {tx ty f} : Turns (.translate tx ty) f fun p => ⟨(f p).x + tx, (f p).y + ty⟩
  | rotate {sin cos f} : Turns (.rotate sin cos) f fun p =>
      ⟨cos * (f p).x - sin * (f p).y, sin * (f p).x + cos * (f p).y⟩
  | append {other f} : Turns (.append other) f fun p => other.apply (f p)
  | prepend {other f} : Turns (.prepend other) f fun p => f (other.apply p)
  | invert {f g} (left : Function.LeftInverse g f) (right : Function.RightInverse g f) :
      Turns .invert f g

/-- What edits with the given answers make of a way to move points. Only inverting may be refused,
    for the map's being singular, and then it is as if it had not been tried. -/
inductive Composes :
    (Point Rat → Point Rat) → List (Edit Rat × Except Fault Unit) →
      (Point Rat → Point Rat) → Prop where
  | nil {f} : Composes f [] f
  | turned {f g h edit rest} (turns : edit.Turns f g) (more : Composes g rest h) :
      Composes f ((edit, .ok ()) :: rest) h
  | refused {f h text rest} (more : Composes f rest h) :
      Composes f ((.invert, .error (.singularTransform text)) :: rest) h

/-- There is one thing at most that an edit makes of a way to move points. -/
theorem Edit.Turns.unique {edit : Edit Rat} {f g g' : Point Rat → Point Rat} (h : edit.Turns f g)
    (h' : edit.Turns f g') : g = g' := by
  cases h with
  | invert left right =>
      cases h' with
      | invert left' right' =>
          funext p
          calc g p = g (f (g' p)) := by rw [right' p]
            _ = g' p := left (g' p)
  | _ => cases h'; rfl

theorem Composes.unique {f g g' : Point Rat → Point Rat}
    {trace : List (Edit Rat × Except Fault Unit)} (h : Composes f trace g)
    (h' : Composes f trace g') : g = g' := by
  induction h with
  | nil => cases h'; rfl
  | turned turns more ih =>
      cases h' with
      | turned turns' more' => exact ih (turns.unique turns' ▸ more')
  | refused more ih =>
      cases h' with
      | refused more' => exact ih more'

/-! ## Edits -/

variable {t : Affine Rat}

theorem inverse_eq_ok {inverse : Affine Rat} :
    t.inverse = .ok inverse ↔ t.inverse? = some inverse := by
  unfold Affine.inverse
  cases t.inverse? <;> simp

/-- A map is refused its inverse for being singular, and for nothing else. -/
theorem inverse_eq_error {fault : Fault} : t.inverse = .error fault ↔
    t.isSingular = true ∧ fault = .singularTransform t.singularText := by
  unfold Affine.inverse inverse?
  cases t.isSingular <;> simp [eq_comm]

/-- An edit turns the map so far, unless it is an inversion that is refused. -/
theorem turns_perform (t : Affine Rat) (edit : Edit Rat) :
    ((edit.perform t).1 = .ok () ∧ edit.Turns t.apply (edit.perform t).2.apply) ∨
      (edit = .invert ∧ t.isSingular = true ∧
        edit.perform t = (.error (.singularTransform t.singularText), t)) := by
  cases edit with
  | scale sx sy =>
      refine .inl ⟨rfl, ?_⟩
      have moved : (t.scale sx sy).apply = fun p => ⟨sx * (t.apply p).x, sy * (t.apply p).y⟩ := by
        funext p
        rw [scale, append, apply_after]
        simp [apply, scaling, zero_eq]
      exact moved ▸ .scale
  | translate tx ty =>
      refine .inl ⟨rfl, ?_⟩
      have moved : (t.translate tx ty).apply = fun p =>
          ⟨(t.apply p).x + tx, (t.apply p).y + ty⟩ := by
        funext p
        rw [translate, append, apply_after]
        simp [apply, displacement, zero_eq, one_eq]
      exact moved ▸ .translate
  | rotate sin cos =>
      refine .inl ⟨rfl, ?_⟩
      have moved : (t.append (rotation sin cos)).apply = fun p =>
          ⟨cos * (t.apply p).x - sin * (t.apply p).y,
            sin * (t.apply p).x + cos * (t.apply p).y⟩ := by
        funext p
        rw [append, apply_after]
        simp only [apply, rotation, zero_eq, Point.mk.injEq]
        constructor <;> ring
      exact moved ▸ .rotate
  | append other =>
      have moved : (t.append other).apply = fun p => other.apply (t.apply p) :=
        funext (apply_after other t)
      exact .inl ⟨rfl, moved ▸ .append⟩
  | prepend other =>
      have moved : (t.prepend other).apply = fun p => t.apply (other.apply p) :=
        funext (apply_after t other)
      exact .inl ⟨rfl, moved ▸ .prepend⟩
  | invert =>
      cases h : t.inverse with
      | ok inverse =>
          have found := inverse_eq_ok.1 h
          refine .inl ⟨by simp only [Edit.perform, h], ?_⟩
          simp only [Edit.perform, h]
          exact .invert (inverse_apply found) (apply_inverse found)
      | error fault =>
          obtain ⟨singular, rfl⟩ := inverse_eq_error.1 h
          exact .inr ⟨rfl, singular, by simp only [Edit.perform, h]⟩

theorem composes_edited (t : Affine Rat) (edits : List (Edit Rat)) :
    Composes t.apply (t.trace edits) (t.edited edits).apply := by
  induction edits generalizing t with
  | nil => exact .nil
  | cons edit rest ih =>
      rw [trace, edited, List.foldl_cons]
      obtain ⟨answer, turns⟩ | ⟨rfl, -, left⟩ := turns_perform t edit
      · rw [answer]
        exact .turned turns (ih _)
      · rw [left]
        exact .refused (ih t)

/-! ## Edited maps -/

/-- A size is moved as the way from one point to another is. -/
theorem applySize_eq (t : Affine Rat) (p : Point Rat) (s : Size Rat) :
    t.applySize s = ⟨(t.apply ⟨p.x + s.width, p.y + s.height⟩).x - (t.apply p).x,
      (t.apply ⟨p.x + s.width, p.y + s.height⟩).y - (t.apply p).y⟩ := by
  simp only [applySize, apply, Size.mk.injEq]
  constructor <;> ring

/-- What edits make of a map. -/
structure Edited (start : Affine Rat) (edits : List (Edit Rat)) (t : Affine Rat) : Prop where
  /-- It moves points as the edits do one after the other, those left out that were refused. -/
  composes : Composes start.apply (start.trace edits) t.apply
  /-- The next edit is refused only if it inverts a singular map, which it leaves as it is. -/
  refused : ∀ (edit : Edit Rat) fault, (edit.perform t).1 = .error fault →
    edit = .invert ∧ t.isSingular = true ∧ fault = .singularTransform t.singularText ∧
      (edit.perform t).2 = t
  /-- The inverse is one on both sides, and is refused only to a singular map. -/
  inverse : match t.inverse with
    | .ok inverse => t.isSingular = false ∧ Function.LeftInverse inverse.apply t.apply ∧
        Function.RightInverse inverse.apply t.apply
    | .error fault => t.isSingular = true ∧ fault = .singularTransform t.singularText
  /-- Sizes are moved without the displacement: by the map that leads from the image of a point. -/
  size : ∀ (p : Point Rat) (s : Size Rat), t.applySize s =
    ⟨(t.apply ⟨p.x + s.width, p.y + s.height⟩).x - (t.apply p).x,
      (t.apply ⟨p.x + s.width, p.y + s.height⟩).y - (t.apply p).y⟩
  /-- The elements are the rows of the map. -/
  rows : ∀ p : Point Rat, t.apply p =
    ⟨t.elements.m11 * p.x + t.elements.m12 * p.y + t.elements.tx,
      t.elements.m21 * p.x + t.elements.m22 * p.y + t.elements.ty⟩
  /-- Nothing is lost between a map, its elements and its coefficients. -/
  elements : ofElements t.elements = t
  rebuilt : ∀ m : Elements Rat, ofElements m = t → t.elements = m
  coefficients : t.toList = [t.elements.m11, t.elements.m21, t.elements.m12, t.elements.m22,
    t.elements.tx, t.elements.ty]
  recovered : ∀ u : Affine Rat, u.toList = t.toList → u = t

/-- Editing composes maps in the order of the edits. -/
theorem edited_composes (start : Affine Rat) (edits : List (Edit Rat)) :
    Edited start edits (start.edited edits) where
  composes := composes_edited start edits
  refused edit fault answer := by
    obtain ⟨done, -⟩ | ⟨invert, singular, left⟩ := turns_perform (start.edited edits) edit
    · rw [done] at answer
      cases answer
    · rw [left] at answer ⊢
      cases answer
      exact ⟨invert, singular, rfl, rfl⟩
  inverse := by
    split
    next inverse found =>
      have found := inverse_eq_ok.1 found
      refine ⟨?_, inverse_apply found, apply_inverse found⟩
      rw [inverse?] at found
      split at found
      · cases found
      · next regular => exact Bool.eq_false_iff.2 regular
    next fault failed => exact inverse_eq_error.1 failed
  size := applySize_eq _
  rows _ := rfl
  elements := rfl
  rebuilt _ same := same ▸ rfl
  coefficients := rfl
  recovered u same := by
    obtain ⟨a, b, c, d, e, f⟩ := u
    simp only [toList, List.cons.injEq] at same
    obtain ⟨rfl, rfl, rfl, rfl, rfl, rfl, -⟩ := same
    rfl

/-- Edits act after what was there; what is put in front of them acts first. -/
example : ((identity : Affine Rat).edited
    [.scale 3 4, .translate 1 2, .invert, .prepend (displacement 4 10)]).apply ⟨0, 0⟩ = ⟨1, 2⟩ := by
  decide +kernel

end PixelKernel.Affine
