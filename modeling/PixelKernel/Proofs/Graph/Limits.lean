import PixelKernel.Graph.Render
import PixelKernel.Proofs.Graph.Copies
import PixelKernel.Proofs.Machine.Budget
import PixelKernel.Proofs.Pixel.Grids

/-! # Limits cut off and change nothing

An evaluation under greater limits does what it did under smaller ones, only further. So what does
not end in a report that a limit was reached is the same under all greater limits.
-/

namespace PixelKernel

/-- The fault reports that a limit was reached. -/
inductive Fault.IsLimit : Fault → Prop where
  | budget : IsLimit (.ofTrap .budget)
  | tooDeep (limit : Nat) : IsLimit (.invalidGraph (.tooDeep limit))

namespace Graph

open PixelKernel.Language (Argument Host Program Value Target Trap)
open Pixel (Grid Layout)

/-! ## Planning -/

namespace Planner

variable {κ χ α β : Type}

/-- The first construction reports that it goes too deep, or both do the same. -/
def Build.CutShort (m m' : Build κ χ α) : Prop :=
  ∀ p, PixelKernel.CutShort Fault.IsLimit (m p) (m' p)

theorem Build.CutShort.refl (m : Build κ χ α) : CutShort m m :=
  fun _ => PixelKernel.CutShort.refl _

theorem Build.CutShort.bind {m m' : Build κ χ α} {f f' : α → Build κ χ β} (h : CutShort m m')
    (rest : ∀ a, CutShort (f a) (f' a)) : CutShort (m >>= f) (m' >>= f') :=
  fun p => (h p).bind fun (a, p') => rest a p'

/-- The same first step, then two constructions of which one may be cut short. -/
theorem Build.CutShort.andThen {m : Build κ χ α} {f f' : α → Build κ χ β}
    (rest : ∀ a, CutShort (f a) (f' a)) : CutShort (m >>= f) (m >>= f') :=
  (refl m).bind rest

theorem Build.CutShort.check {c : Prop} [Decidable c] {fault : Fault} {m m' : Build κ χ α}
    (right : CutShort m m') :
    CutShort (if c then (throw fault : Build κ χ PUnit) >>= fun _ => m else m)
      (if c then (throw fault : Build κ χ PUnit) >>= fun _ => m' else m') := by
  by_cases h : c
  · rw [if_pos h, if_pos h]
    exact refl _
  · rw [if_neg h, if_neg h]
    exact right

variable {visit visit' : Nat → Build κ χ Nat} (short : ∀ n, (visit n).CutShort (visit' n))

include short

theorem argument_cutShort (kernel : String) (slot : Argument × Option Value) :
    (argument visit kernel slot).CutShort (argument visit' kernel slot) := by
  unfold argument
  split
  · exact .refl _
  · exact (short _).bind fun i => .refl _
  · exact .refl _

theorem arguments_cutShort (kernel : String) (slots : List (Argument × Option Value)) :
    (arguments visit kernel slots).CutShort (arguments visit' kernel slots) := by
  induction slots with
  | nil => exact .refl _
  | cons slot rest ih =>
      rw [arguments_cons, arguments_cons]
      exact (argument_cutShort short kernel slot).bind fun v => ih.bind fun vs => .refl _

variable [Scalar κ]

theorem kernelNode_cutShort (s : Store κ χ) (k : Nat) (target : Target) (extent : Rect κ) :
    (kernelNode s visit k target extent).CutShort (kernelNode s visit' k target extent) := by
  unfold kernelNode
  refine .andThen fun p => .check ?_
  split
  · exact .refl _
  · exact .check (.andThen fun _ => (arguments_cutShort short _ _).bind fun args => .refl _)

theorem fresh_cutShort (s : Store κ χ) (n : Nat) :
    (fresh s visit n).CutShort (fresh s visit' n) := by
  unfold fresh
  split
  · exact .refl _
  · exact .refl _
  · exact .refl _
  · exact kernelNode_cutShort short s _ _ _
  · exact (short _).bind fun i => .refl _
  · exact (short _).bind fun i => .refl _

omit short

/-- More room and a greater limit change nothing unless there was no room. -/
theorem visit_cutShort (s : Store κ χ) {limit limit' room room' : Nat} (le : room ≤ room')
    (n : Nat) : (Planner.visit s limit room n).CutShort (Planner.visit s limit' room' n) := by
  induction room generalizing room' n with
  | zero => exact fun p => .error (.tooDeep limit)
  | succ room ih =>
      obtain ⟨room', rfl⟩ : ∃ r, room' = r + 1 := ⟨room' - 1, by omega⟩
      unfold Planner.visit
      refine .andThen fun p => ?_
      cases p.planned.lookup n with
      | some i => exact .refl _
      | none =>
          refine (fresh_cutShort (fun m => ih (Nat.le_of_succ_le_succ le) m) s n).bind fun i => ?_
          exact .refl _

end Planner

namespace Plan

variable {κ χ : Type} [Scalar κ] {s : Store κ χ} {limits limits' : Limits}

omit [Scalar κ] in
theorem build_cutShort {m m' : Planner.Build κ χ Nat} (h : m.CutShort m') :
    CutShort Fault.IsLimit (build m) (build m') :=
  (h _).bind fun _ => .refl _

theorem forImage_cutShort (deep : limits.depth ≤ limits'.depth) (n : Nat) :
    CutShort Fault.IsLimit (forImage s limits n) (forImage s limits' n) :=
  build_cutShort (Planner.visit_cutShort s (Nat.succ_le_succ deep) n)

theorem forRecords_cutShort (deep : limits.depth ≤ limits'.depth) (k : Nat) :
    CutShort Fault.IsLimit (forRecords s limits k) (forRecords s limits' k) :=
  build_cutShort (Planner.kernelNode_cutShort (Planner.visit_cutShort s deep) s k _ _)

/-! ## Reading a plan -/

variable {plan : Plan Float Float32} {budget budget' : Nat}

theorem access_cutShort (plan : Plan Float Float32)
    {f f' : Nat → Point Float → Except Trap (Rgba Float32)}
    (short : ∀ i q, CutShort (· = .budget) (f i q) (f' i q)) {σ : Type} (p : Point Float)
    (emit : Rgba Float32 → σ → Except Trap Unit × σ) :
    ((plan.access f).host p emit).CutShort ((plan.access f').host p emit) where
  destination := rfl
  sample
    | none, q, s => .inr rfl
    | some i, q, s => by
        rcases short i ((plan.access f).toWorld i |>.apply (pointOf q)) with ⟨_, rfl, early⟩ | same
        · exact .inl early
        · exact .inr (congrArg (·, s) same)
  transform := rfl
  extent := rfl
  emit := rfl

theorem runForColour_cutShort (le : budget ≤ budget')
    {f f' : Nat → Point Float → Except Trap (Rgba Float32)}
    (short : ∀ i q, CutShort (· = .budget) (f i q) (f' i q)) (program : Program)
    (args : List Value) (p : Point Float) :
    CutShort (· = .budget) (runForColour budget program args (plan.access f) p)
      (runForColour budget' program args (plan.access f') p) := by
  unfold runForColour
  dsimp only
  rcases Program.run_cutShort (p := program)
    (access_cutShort plan short p fun _ s => ((.error .emitOutside : Except Trap Unit), s))
    le args () with early | ⟨same, -⟩
  · rw [early]
    exact .error rfl
  · rw [same]
    exact .refl _

theorem colour_cutShort (le : budget ≤ budget') (i : Nat) (p : Point Float) :
    CutShort (· = .budget) (plan.colour (runForColour budget) i p)
      (plan.colour (runForColour budget') i p) := by
  induction i using Nat.strong_induction_on generalizing p with
  | _ i ih =>
  -- a node reads only nodes before it
  have below (j : Nat) (q : Point Float) : CutShort (· = Trap.budget)
      (if _h : j < i then plan.colour (runForColour budget) j q else .ok .transparent)
      (if _h : j < i then plan.colour (runForColour budget') j q else .ok .transparent) := by
    by_cases before : j < i
    · simp only [before, dif_pos, ih j before q]
    · simp only [before, dif_neg, not_false_eq_true, CutShort.refl]
  rw [Plan.colour, Plan.colour]
  cases plan.nodes[i]? with
  | none => exact .refl _
  | some node =>
      dsimp only
      cases node.op with
      | empty => exact .refl _
      | pixels grid origin interpolate => exact .refl _
      | kernel program args => exact runForColour_cutShort le below program args p
      | transform child inverse => exact below child _
      | crop child rect =>
          dsimp only
          split
          · exact below child p
          · exact .refl _

theorem emit_cutShort (le : budget ≤ budget') (p : Point Float)
    (records : Array (Rgba Float32)) :
    CutShort (· = .budget) (plan.emit budget p records) (plan.emit budget' p records) := by
  unfold Plan.emit
  split
  next program args _ _ _ _ =>
    dsimp only
    rcases Program.run_cutShort (p := program)
      (access_cutShort plan (colour_cutShort le) p
        fun c s => ((.ok () : Except Trap Unit), s.push c))
      le args records with early | ⟨same, state⟩
    · rw [early]
      exact .error rfl
    · rw [same, state]
      exact .refl _
  next => exact .refl _

/-! ## Pixels -/

end Plan

section

variable {ε α : Type} {early : ε → Prop}

theorem cutShort_ofFnM {n : Nat} {f f' : Fin n → Except ε α}
    (short : ∀ i, CutShort early (f i) (f' i)) :
    CutShort early (Vector.ofFnM f) (Vector.ofFnM f') := by
  induction n with
  | zero => exact .inr (by simp)
  | succ n ih =>
      rw [Vector.ofFnM_succ, Vector.ofFnM_succ]
      exact (ih fun i => short i.castSucc).bind fun as => (short _).bind fun a => .refl _

theorem cutShort_build {χ : Type} {width height : Nat} {f f' : Nat → Nat → Except ε (Rgba χ)}
    (short : ∀ column row, CutShort early (f column row) (f' column row)) :
    CutShort early (Grid.build width height f) (Grid.build width height f') :=
  (cutShort_ofFnM fun _ => short _ _).bind fun _ => .refl _

end

namespace Plan

variable {plan : Plan Float Float32} {budget budget' : Nat}

theorem render_cutShort (le : budget ≤ budget') (rect : Rect Float) (width height : Nat) :
    CutShort (· = .budget) (plan.render (runForColour budget) rect width height)
      (plan.render (runForColour budget') rect width height) :=
  cutShort_build fun _ _ => colour_cutShort le _ _

theorem recordsOf_cutShort (le : budget ≤ budget') (rect : Rect Float) (width height left : Nat)
    (records : Array (Rgba Float32)) : CutShort (· = .budget)
      (plan.recordsOf budget rect width height left records)
      (plan.recordsOf budget' rect width height left records) := by
  induction left generalizing records with
  | zero => exact .refl _
  | succ left ih => exact (emit_cutShort le _ records).bind fun records => ih records

theorem records_cutShort (le : budget ≤ budget') (rect : Rect Float) (width height : Nat) :
    CutShort (· = .budget) (plan.records budget rect width height)
      (plan.records budget' rect width height) :=
  recordsOf_cutShort le rect width height _ #[]

end Plan

/-- What the second limits allow is at least what the first ones do. -/
structure Limits.Within (limits limits' : Limits) : Prop where
  instructions : limits.instructions ≤ limits'.instructions
  depth : limits.depth ≤ limits'.depth

namespace Store

variable {s : Store Float Float32} {limits limits' : Limits}

theorem isLimit_of_budget (t : Trap) (h : t = .budget) : (Fault.ofTrap t).IsLimit :=
  h ▸ .budget

theorem render_cutShort (more : limits.Within limits') (n : Nat) (rect : Rect Float)
    (width height : Nat) : CutShort Fault.IsLimit
      (s.render runForColour limits n rect width height)
      (s.render runForColour limits' n rect width height) := by
  unfold render
  split
  · exact .refl _
  · refine (Plan.forImage_cutShort more.depth n).bind fun plan => ?_
    exact (Plan.render_cutShort more.instructions rect width height).mapError isLimit_of_budget

theorem renderInto_cutShort (more : limits.Within limits') (n : Nat) (rect : Rect Float)
    (l : Layout) (data : ByteArray) : CutShort Fault.IsLimit (s.renderInto limits n rect l data)
      (s.renderInto limits' n rect l data) :=
  (CutShort.refl _).bind fun _ => (render_cutShort more n rect _ _).bind fun _ => .refl _

theorem reduce_cutShort (more : limits.Within limits') (k : Option Nat) (rect : Rect Float)
    (width height : Nat) : CutShort Fault.IsLimit (s.reduce limits k rect width height)
      (s.reduce limits' k rect width height) := by
  unfold reduce
  cases k with
  | none => exact .refl _
  | some k =>
      refine (Plan.forRecords_cutShort more.depth k).bind fun plan => ?_
      exact (Plan.records_cutShort more.instructions rect width height).mapError isLimit_of_budget

/-- What is answered under the first limits, and is no report of a limit, is answered under the
    second ones too. -/
structure Keeps (s : Store Float Float32) (limits limits' : Limits) : Prop where
  image : ∀ n rect width height,
    (∀ fault, s.render runForColour limits n rect width height = .error fault → ¬ fault.IsLimit) →
      s.render runForColour limits' n rect width height =
        s.render runForColour limits n rect width height
  buffer : ∀ n rect l data,
    (∀ fault, s.renderInto limits n rect l data = .error fault → ¬ fault.IsLimit) →
      s.renderInto limits' n rect l data = s.renderInto limits n rect l data
  records : ∀ k rect width height,
    (∀ fault, s.reduce limits k rect width height = .error fault → ¬ fault.IsLimit) →
      s.reduce limits' k rect width height = s.reduce limits k rect width height

theorem keeps (s : Store Float Float32) (more : limits.Within limits') : s.Keeps limits limits' where
  image n rect width height := (render_cutShort more n rect width height).eq
  buffer n rect l data := (renderInto_cutShort more n rect l data).eq
  records k rect width height := (reduce_cutShort more k rect width height).eq

end Store

/-- Greater limits change no answer of a graph, and every run of a kernel has a budget from which
    on it succeeds. -/
theorem Limits.Within.only_cut_off {limits limits' : Limits} (more : limits.Within limits') :
    (∀ s : Store Float Float32, s.Keeps limits limits') ∧
      ∀ {σ : Type} (p : Program) (args : List Value) (host : Host σ) (s : σ),
        p.Metered args host s :=
  ⟨fun s => s.keeps more, fun p args host s => p.metered args host s⟩

/-- Copying takes four instructions, and no edge has to be followed. -/
theorem twoImages_cut_off : (⟨4, 0⟩ : Limits).Within .standard ∧ ∃ g,
    twoImages.render runForColour ⟨4, 0⟩ 0 ⟨0, 0, 1, 1⟩ 1 1 = .ok g ∧
      twoImages.render runForColour .standard 0 ⟨0, 0, 1, 1⟩ 1 1 = .ok g := by
  have more : (⟨4, 0⟩ : Limits).Within .standard := ⟨by decide, by decide⟩
  have done : (twoImages.render runForColour ⟨4, 0⟩ 0 ⟨0, 0, 1, 1⟩ 1 1).isOk = true := by
    decide +kernel
  refine ⟨more, ?_⟩
  cases rendered : twoImages.render runForColour ⟨4, 0⟩ 0 ⟨0, 0, 1, 1⟩ 1 1 with
  | error fault => rw [rendered] at done; cases done
  | ok g =>
      have same := (more.only_cut_off.1 twoImages).image 0 ⟨0, 0, 1, 1⟩ 1 1 fun fault failed => by
        rw [rendered] at failed
        cases failed
      exact ⟨g, rfl, same.trans rendered⟩

end Graph
end PixelKernel
