import PixelKernel.Graph.Render
import PixelKernel.Proofs.Graph.Bindings
import PixelKernel.Proofs.Geometry.Extents
import PixelKernel.Proofs.Geometry.Identity
import PixelKernel.Proofs.Graph.Checking
import PixelKernel.Proofs.Graph.Feedback
import PixelKernel.Proofs.Graph.Validation
import PixelKernel.Proofs.Machine.Requests
import PixelKernel.Proofs.Pixel.Grids

/-! # Unbound samplers and empty images

A sampler that nothing is bound to is answered for by the host, and an empty image that is bound by
the plan. To a running kernel both look the same, although it holds different values: it samples
transparency, everywhere, and finds every place unmoved.
-/

namespace PixelKernel.Graph

open Relation
open PixelKernel.Language (Argument Corresponds Host Pair Program Request Target Trap Value)

variable {κ χ : Type}

/-- Binds an empty image to a sampler that is unbound. -/
def Edit.Fills (s : Store κ χ) (k : Nat) (e : Edit) : Prop :=
  ∃ name c, e = .bind name (some (.sampler (some c))) ∧ (s.kernel k).Declares name .sampler ∧
    (s.kernel k).argument name = .ok none ∧ c < s.nodes.size ∧ s.node c = .empty

namespace Store

variable {s s' : Store κ χ} {k : Nat}

/-! ## What a change of bindings does not reach -/

/-- Nodes that do not need the kernel are what they were. -/
theorem Rebinds.copies [Scalar κ] (h : s.Rebinds k s') :
    s.Copies s' fun n n' => n = n' ∧ ¬ s.Needs n k := by
  rintro n _ ⟨rfl, apart⟩
  have below {c} (edge : c ∈ s.children n) : ¬ s.Needs c k :=
    fun needs => apart (Leads.needs (.single edge) needs)
  rw [h.node]
  cases node : s.node n with
  | empty => exact .empty
  | buffer b => exact .buffer b
  | canvas c => exact .canvas (by rw [h.canvases])
  | transform c t => exact .transform t ⟨rfl, below (by simp [Store.children, node])⟩
  | crop c rect => exact .crop rect ⟨rfl, below (by simp [Store.children, node])⟩
  | kernel j policy =>
      have other : j ≠ k := by
        rintro rfl
        exact apart ⟨n, .refl, isImageOf_iff.2 ⟨policy, node⟩⟩
      have apart {c} (bound : c ∈ (s.kernel j).boundSamplers) : ¬ s.Needs c k :=
        below (mem_children_of_isImageOf (isImageOf_iff.2 ⟨policy, node⟩) bound)
      refine .kernel (by rw [h.others other]) ?_ fun f _ seen seen' same => ?_
      · rw [h.others other, List.forall₂_same]
        rintro ⟨a, _ | v⟩ slot
        · exact ⟨rfl, .none⟩
        · exact ⟨rfl, .some (renamed_self fun c bound =>
            ⟨rfl, apart (among_slots_iff.1 ⟨a, bound ▸ slot⟩)⟩)⟩
      · rw [h.others other] at same ⊢
        exact congrArg (f (s.kernel j))
          (inputExtents_congr fun c bound => same c bound c bound ⟨rfl, apart bound⟩)

/-- So the same is wrong with them. -/
theorem Rebinds.faults [Scalar κ] (h : s.Rebinds k s') (wired : s.Wired) (wired' : s'.Wired)
    (place : Nat → Nat) {n : Nat} (apart : ¬ s.Needs n k) : s'.faults place n = s.faults place n := by
  induction n using wired.wellFounded.induction with
  | _ n ih =>
  have same : s'.faultsOf place (s'.faults place) n = s.faultsOf place (s'.faults place) n := by
    unfold faultsOf kernelFaults
    rw [h.node]
    cases node : s.node n with
    | kernel j policy =>
        have other : j ≠ k := by
          rintro rfl
          exact apart ⟨n, .refl, isImageOf_iff.2 ⟨policy, node⟩⟩
        dsimp only
        rw [h.others other]
    | _ => rfl
  rw [wired.faults_eq, wired'.faults_eq, same]
  exact faultsOf_congr _ _ n fun c edge => ih c edge fun needs =>
    apart (Leads.needs (.single edge) needs)

/-! ## Empty images in place of nothing -/

/-- The binding is the same, or it is an empty image where there was none. -/
inductive Fills (s : Store κ χ) : Argument × Option Value → Argument × Option Value → Prop where
  | same (slot) : s.Fills slot slot
  | empty {a c} (sampler : a.ty = .sampler) (nothing : s.node c = .empty) :
      s.Fills (a, none) (a, some (.sampler (some c)))

/-- The stores differ in empty images that are bound to samplers of the kernel, at most. -/
structure Filled (s : Store κ χ) (k : Nat) (s' : Store κ χ) : Prop where
  rebinds : s.Rebinds k s'
  slots : List.Forall₂ s.Fills (s.kernel k).slots (s'.kernel k).slots

theorem children_of_empty {c : Nat} (nothing : s.node c = .empty) : s.children c = [] := by
  simp [children, nothing]

theorem not_needs_of_empty {c : Nat} (nothing : s.node c = .empty) : ¬ s.Needs c k := by
  rintro ⟨m, way, image⟩
  cases way using ReflTransGen.head_induction_on with
  | refl => simp [isImageOf, nothing] at image
  | head edge => simp [children_of_empty nothing] at edge

theorem faults_of_empty [Scalar κ] (wired : s.Wired) (place : Nat → Nat) {c : Nat}
    (nothing : s.node c = .empty) : s.faults place c = [] := by
  rw [wired.faults_eq, faultsOf, nothing]

/-! ## Edits that fill -/

/-- The edit succeeds, at a place that was empty. -/
theorem landing_of_fills {e : Edit} (names : (((s.kernel k).arguments?.getD []).map (·.name)).Nodup)
    (places : (s.kernel k).bindings.length = ((s.kernel k).arguments?.getD []).length)
    (fills : e.Fills s k) : ∃ i a c, s.landing k e = .ok (i, some (.sampler (some c))) ∧
      ((s.kernel k).arguments?.getD [])[i]? = some a ∧ (s.kernel k).bindings[i]? = some none ∧
      a.ty = .sampler ∧ s.node c = .empty := by
  obtain ⟨name, c, rfl, declares, unbound, -, nothing⟩ := fills
  obtain ⟨i, a, index, there, sampler⟩ := index_of_declares names declares
  have free : s.reaches c k = false := by
    rw [← Bool.not_eq_true, reaches_iff]
    exact not_needs_of_empty nothing
  have inside : i < (s.kernel k).bindings.length := places ▸ (List.getElem?_eq_some_iff.1 there).1
  have vacant : ((s.kernel k).bindings[i]?).join = none := by
    simpa [Kernel.argument, index] using unbound
  refine ⟨i, a, c, ?_, there, ?_, sampler, nothing⟩
  · change s.placement k name _ = _
    rw [placement_sampler index there sampler, free]
    rfl
  · rw [List.getElem?_eq_getElem inside] at vacant ⊢
    exact congrArg some vacant

theorem zip_set_right {α β : Type} {as : List α} {bs : List β} {i : Nat} {a : α} {b : β}
    (there : as[i]? = some a) : as.zip (bs.set i b) = (as.zip bs).set i (a, b) := by
  induction as generalizing bs i with
  | nil => cases there
  | cons a' as ih =>
      cases bs with
      | nil => rfl
      | cons b' bs =>
          cases i with
          | zero => cases there; rfl
          | succ i => exact congrArg ((a', b') :: ·) (ih there)

/-- What the bindings become, against what they were before the first edit. -/
theorem fills_landed {as : List Argument} {bs bs' : List (Option Value)} {edits : List Edit}
    (landing : ∀ e ∈ edits, ∃ i a c, s.landing k e = .ok (i, some (.sampler (some c))) ∧
      as[i]? = some a ∧ bs[i]? = some none ∧ a.ty = .sampler ∧ s.node c = .empty)
    (so_far : List.Forall₂ s.Fills (as.zip bs) (as.zip bs')) :
    List.Forall₂ s.Fills (as.zip bs) (as.zip (edits.foldl (s.landed k) bs')) := by
  induction edits generalizing bs' with
  | nil => exact so_far
  | cons e edits ih =>
      obtain ⟨i, a, c, lands, there, vacant, sampler, nothing⟩ := landing e (.head edits)
      refine ih (fun e' later => landing e' (.tail e later)) ?_
      rw [landed, lands, zip_set_right there]
      refine forall₂_set_right so_far fun slot old => ?_
      obtain ⟨a', v⟩ := slot
      obtain ⟨first, second⟩ := List.getElem?_zip_eq_some.1 old
      cases there.symm.trans first
      cases vacant.symm.trans second
      exact .empty sampler nothing

theorem filled_edited (names : (((s.kernel k).arguments?.getD []).map (·.name)).Nodup)
    (places : (s.kernel k).bindings.length = ((s.kernel k).arguments?.getD []).length)
    {edits : List Edit} (fills : ∀ e ∈ edits, e.Fills s k) : s.Filled k (s.edited k edits) := by
  have rebinds := s.rebinds_edited k edits
  refine ⟨rebinds, ?_⟩
  have arguments : ((s.edited k edits).kernel k).arguments? = (s.kernel k).arguments? :=
    congrArg (Option.map Program.arguments) rebinds.program
  rw [Kernel.slots, Kernel.slots, arguments, bindings_edited]
  exact fills_landed (fun e there => landing_of_fills names places (fills e there))
    (List.forall₂_same.2 fun slot _ => .same slot)

theorem names_edit [Scalar κ] [Scalar χ] [Narrow κ χ] {e e' : Edit} :
    (e'.operation k).Names (s.edit k e).store ↔ (e'.operation k).Names s := by
  have sizes : (s.edit k e).store.kernels.size = s.kernels.size ∧
      (s.edit k e).store.nodes = s.nodes := by
    rw [(edit_eq e).2]
    split
    · exact ⟨rfl, rfl⟩
    · exact ⟨Array.size_setIfInBounds, rfl⟩
  cases e' <;> simp only [Edit.operation, Operation.Names, Offers, sizes]

end Store

section

variable [Scalar κ] [Scalar χ] [Narrow κ χ] {run : Nat → Runner κ χ} {s : Store κ χ} {k : Nat}

theorem Reached.edited {ops : List (Operation κ χ)} (h : Reached run ops s) {edits : List Edit}
    (names : ∀ e ∈ edits, (e.operation k).Names s) : ∃ ops', Reached run ops' (s.edited k edits) := by
  induction edits generalizing s ops with
  | nil => exact ⟨ops, h⟩
  | cons e edits ih =>
      have first := h.step (names e (.head edits))
      rw [Store.edit_operation] at first
      exact ih first fun e' later => Store.names_edit.2 (names e' (.tail e later))

omit [Scalar κ] [Scalar χ] [Narrow κ χ] in
theorem names_of_fills {e : Edit} (fills : e.Fills s k) :
    (e.operation k : Operation κ χ).Names s := by
  obtain ⟨name, c, rfl, ⟨a, there, -⟩, -, inside, -⟩ := fills
  refine ⟨?_, ?_⟩
  · by_contra outside
    have none_ : s.kernel k = .new := by simp [Store.kernel, Array.getD, outside]
    rw [none_] at there
    cases there
  · rintro _ ⟨⟩
    exact ⟨c, rfl, inside⟩

end

/-! ## Records at all pixels -/

namespace Plan

variable {plan plan' : Plan Float Float32} {budget width height : Nat} {rect : Rect Float}

theorem recordsOf_congr (same : ∀ x < width, ∀ y < height, ∀ rs,
      plan.emit budget (rect.pixelCenter width height x y) rs =
        plan'.emit budget (rect.pixelCenter width height x y) rs) {left : Nat}
    (few : left ≤ width * height) (rs : Array (Rgba Float32)) :
    plan.recordsOf budget rect width height left rs =
      plan'.recordsOf budget rect width height left rs := by
  induction left generalizing rs with
  | zero => rfl
  | succ left ih =>
      obtain ⟨column, row⟩ := Pixel.Grid.column_row
        (show width * height - (left + 1) < width * height by omega)
      rw [recordsOf, recordsOf, same _ column _ row]
      exact congrArg (_ >>= ·) (funext fun rs => ih (by omega) rs)

theorem records_congr (same : ∀ x < width, ∀ y < height, ∀ rs,
      plan.emit budget (rect.pixelCenter width height x y) rs =
        plan'.emit budget (rect.pixelCenter width height x y) rs) :
    plan.records budget rect width height = plan'.records budget rect width height :=
  recordsOf_congr same le_rfl #[]

end Plan

/-! ## Runs -/

/-- What comes of emitting a colour: there is no place for it in the colour of an image. -/
def emission : Target → Except Trap Unit
  | .normal => .error .emitOutside
  | .reduce => .ok ()

namespace Store

/-- The host, but for empty images, which are left exactly where they are. -/
def resting {σ : Type} (s : Store κ χ) (host : Host σ) : Host σ :=
  { host with
    transform := fun a q st =>
      match a.map s.node with
      | some .empty => (q, st)
      | _ => host.transform a q st }

/-- One sampler in two stores: none, or an empty image in its stead, or a node that does not need
    the kernel. -/
inductive Sees (s : Store κ χ) (k : Nat) : Option Nat → Option Nat → Prop where
  | unbound : s.Sees k none none
  | empty {c} (nothing : s.node c = .empty) : s.Sees k none (some c)
  | node {c} (apart : ¬ s.Needs c k) : s.Sees k (some c) (some c)

/-- The host of a kernel that runs in the graph itself, without a plan. -/
def host {σ : Type} (s : Store Float Float32) (budget : Nat) (p : Point Float)
    (emit : Rgba Float32 → σ → Except Trap Unit × σ) : Host σ :=
  (s.access (s.colour (runForColour budget))).host p emit

/-- What the kernel asks of it. -/
def asked (s : Store Float Float32) (budget k : Nat) (p : Point Float) : List Request :=
  match (s.kernel k).program? with
  | none => []
  | some program => program.requests (s.kernel k).passed
      (s.host budget p fun _ st => (emission program.target, st)) budget ()

/-- Records that the kernel emits in the graph itself, added to those emitted before. -/
def emit (s : Store Float Float32) (budget k : Nat) (p : Point Float)
    (records : Array (Rgba Float32)) : Except Trap (Array (Rgba Float32)) :=
  match (s.kernel k).program? with
  | none => .error .noReduceRoot
  | some program =>
    let run := program.run (s.kernel k).passed (s.host budget p fun c rs => (.ok (), rs.push c))
      budget records
    recordsFrom run.state run.result

@[simp] theorem destination_resting {σ : Type} (s : Store κ χ) (host : Host σ) :
    (s.resting host).destination = host.destination := rfl

variable {s s' : Store Float Float32} {k : Nat}

/-- Empty images are asked about places that stay where they are. -/
def Steady (s : Store Float Float32) (budget k : Nat) (p : Point Float) : Prop :=
  ∀ c q, .transform (some c) q ∈ s.asked budget k p → s.node c = .empty → Still q

/-- If the request asks where a place is, the place is finite and has no negative zeros. -/
def SettledRequest : Request → Prop
  | .transform (some _) q => Settled q
  | _ => True

instance : DecidablePred SettledRequest
  | .transform (some _) q => inferInstanceAs (Decidable (Settled q))
  | .transform none _ | .sample .. | .extent _ | .emit _ => inferInstanceAs (Decidable True)

/-- A pixel is steady if all that its kernel asks about is finite, up to the sign of zero. -/
theorem steady_of_finite {budget : Nat} {p : Point Float}
    (finite : ∀ r ∈ s.asked budget k p, SettledRequest r) : s.Steady budget k p :=
  fun _ _ asked _ => Settled.still (finite _ asked)

theorem passed_filled (wired : s.Wired) (filled : s.Filled k s') :
    List.Forall₂ (Value.Renamed (s.Sees k)) (s.kernel k).passed (s'.kernel k).passed := by
  rw [Kernel.passed, Kernel.passed, List.forall₂_map_left_iff, List.forall₂_map_right_iff]
  refine ((List.forall₂_and_left _ _).2 ⟨fun _ => id, filled.slots⟩).imp ?_
  rintro ⟨a, v⟩ _ ⟨slot, fills⟩
  cases fills with
  | empty _ nothing => exact .sampler (.empty nothing)
  | same =>
      cases v with
      | none => exact .sampler .unbound
      | some v =>
          cases v with
          | sampler n =>
              cases n with
              | none => exact .sampler .unbound
              | some c => exact .sampler (.node (wired.apart (among_slots_iff.1 ⟨a, slot⟩)))
          | _ => exact .plain fun sampler => by cases sampler

theorem colour_of_empty (wired : s.Wired) (sourced : s.Sourced) (budget : Nat) {c : Nat}
    (nothing : s.node c = .empty) : s.colour (runForColour budget) c = fun _ => .ok .transparent := by
  rw [wired.colour_eq sourced]
  funext p
  rw [colourOf, nothing]

theorem toWorld_of_empty (wired : s.Wired) {c : Nat} (nothing : s.node c = .empty) :
    s.toWorld c = .identity := by
  rw [wired.toWorld_eq, toWorldOf, nothing]

theorem extent_of_empty (wired : s.Wired) {c : Nat} (nothing : s.node c = .empty) :
    s.extent c = .plane := by
  rw [wired.extent_eq, extentOf, nothing]

/-- The plane, seen through any map, is the plane. -/
theorem mapExtent_plane (t : Affine Float) : t.mapExtent .plane = .plane := by
  rw [Affine.mapExtent, if_pos Rect.isInfinite_plane_float]

section

variable {σ : Type} {p : Point Float} {emit : Rgba Float32 → σ → Except Trap Unit × σ}

/-- Hosts that leave empty images where they are cannot be told apart. -/
theorem resting_renamed (filled : s.Filled k s') (wired : s.Wired) (wired' : s'.Wired)
    (sourced : s.Sourced) (sourced' : s'.Sourced) (budget : Nat) (p : Point Float)
    (emit : Rgba Float32 → σ → Except Trap Unit × σ) :
    (s.resting (s.host budget p emit)).Renamed (s.Sees k) (s'.resting (s'.host budget p emit)) := by
  have copies := filled.rebinds.copies
  have unique : Relator.BiUnique fun n n' => n = n' ∧ ¬ s.Needs n k :=
    ⟨fun _ _ _ h h' => h.1.trans h'.1.symm, fun _ _ _ h h' => h.1.symm.trans h'.1⟩
  have node (c : Nat) := filled.rebinds.node c
  have map {c} (apart : ¬ s.Needs c k) := copies.toWorld wired wired' ⟨rfl, apart⟩
  constructor
  case unbound => exact .unbound
  case destination => simp only [resting, host, Access.host]
  case emit => simp only [resting, host, Access.host]
  case sample =>
    intro a b same
    cases same with
    | unbound => simp only [resting, host, Access.host]
    | @empty c nothing =>
        have shown := colour_of_empty wired' sourced' budget (node c ▸ nothing)
        simp only [resting, host, Access.host, access, shown]
    | node apart =>
        have shown := copies.colour_of_biUnique wired wired' sourced sourced' unique budget
          ⟨rfl, apart⟩
        simp only [resting, host, Access.host, access, shown, map apart]
  case transform =>
    intro a b same
    funext q st
    cases same with
    | unbound => simp only [resting, host, Access.host, Option.map_none]
    | @empty c nothing => simp [resting, host, Access.host, node, nothing]
    | node apart => simp only [resting, host, Access.host, access, Option.map_some, node, map apart]
  case extent =>
    intro a b same
    cases same with
    | unbound => simp only [resting, host, Access.host]
    | @empty c nothing =>
        have plane := extent_of_empty wired' (node c ▸ nothing)
        simp only [resting, host, Access.host, access, plane, mapExtent_plane]
    | node apart =>
        have seen := copies.extent wired wired' ⟨rfl, apart⟩
        simp only [resting, host, Access.host, access, seen, map apart]

/-- A host leaves empty images where they are, as far as it is asked about places that stay. -/
theorem agrees_resting (wired : s.Wired) {budget : Nat} {r : Request}
    (still : ∀ c q, r = .transform (some c) q → s.node c = .empty → Still q) :
    (s.host budget p emit).Agrees (s.resting (s.host budget p emit)) r := by
  cases r with
  | transform a q =>
      funext st
      cases a with
      | none => rfl
      | some c =>
          cases node : s.node c with
          | empty =>
              have unmoved := still c q rfl node
              simp only [resting, Option.map_some, node, host, Access.host, access,
                toWorld_of_empty wired node]
              exact congrArg (·, st) unmoved
          | _ => simp only [resting, Option.map_some, node]
  | _ => rfl

/-- What is asked for is up to what becomes of emitted colours, not to where they are kept. -/
theorem requests_eq {program : Program} (answer : Except Trap Unit)
    (same : ∀ c st, (emit c st).1 = answer) (args : List Value) (budget : Nat) (st : σ) :
    program.requests args (s.host budget p emit) budget st =
      program.requests args (s.host budget p fun _ st => (answer, st)) budget () := by
  have alike : (s.host budget p emit).recorded.Alike (fun st => ((), st.2)) True
      (s.host budget p fun _ st => (answer, st) : Host Unit).recorded := by
    refine ⟨rfl, ?_, ?_, ?_, fun _ c st => ?_⟩
    · rintro (_ | k) q st <;> rfl
    · rintro (_ | k) q st <;> rfl
    · rintro (_ | k) st <;> rfl
    · simp [Host.recorded, host, Access.host, same]
  have runs := Program.run_alike (p := program) alike (.inr trivial) args budget (st, [])
  unfold Program.requests
  rw [runs]
  rfl

/-- A kernel runs in the two stores as if they were one. -/
theorem run_filled (filled : s.Filled k s') (wired : s.Wired) (wired' : s'.Wired)
    (sourced : s.Sourced) (sourced' : s'.Sourced) {program : Program}
    (compiled : (s.kernel k).program? = some program)
    (blind : ∀ host : Host σ, program.Blind (s.kernel k).passed host) {budget : Nat}
    (steady : s.Steady budget k p) (steady' : s'.Steady budget k p)
    (emits : ∀ c st, (emit c st).1 = emission program.target) (st : σ) :
    (program.run (s.kernel k).passed (s.host budget p emit) budget st).Renamed (s.Sees k)
      (program.run (s'.kernel k).passed (s'.host budget p emit) budget st) := by
  have compiled' := filled.rebinds.program.trans compiled
  have left : ∀ r ∈ program.requests (s.kernel k).passed (s.host budget p emit) budget st,
      (s.host budget p emit).Agrees (s.resting (s.host budget p emit)) r := by
    rw [requests_eq _ emits]
    refine fun r there => agrees_resting wired fun c q same => steady c q ?_
    rwa [asked, compiled, ← same]
  have right : ∀ r ∈ program.requests (s'.kernel k).passed (s'.host budget p emit) budget st,
      (s'.host budget p emit).Agrees (s'.resting (s'.host budget p emit)) r := by
    rw [requests_eq _ emits]
    refine fun r there => agrees_resting wired' fun c q same => steady' c q ?_
    rwa [asked, compiled', ← same]
  rw [Program.run_congr (s.destination_resting _) left,
    Program.run_congr (s'.destination_resting _) right]
  exact Program.run_renamed (resting_renamed filled wired wired' sourced sourced' budget p emit)
    (sourced.plain compiled) (passed_filled wired filled) (.inr (blind _)) budget st

end

/-! ## Plans of the kernel -/

section

variable {planner : Planner Float Float32} {plan : Plan Float Float32}

/-- What a run in a plan reads is what it reads in the graph itself, at places for numbers. -/
theorem Planned.access_alike (planned : s.Planned planner) (wired : s.Wired) (sourced : s.Sourced)
    (nodes : plan.nodes = planner.nodes) (budget : Nat) :
    (plan.access (plan.colour (runForColour budget))).Alike (fun i n => (n, i) ∈ planner.planned)
      (s.access (s.colour (runForColour budget))) := by
  have found {i n} (there : (n, i) ∈ planner.planned) : ∃ op, plan.nodes[i]? =
      some ⟨op, s.toWorld n, (s.toWorld n).reciprocalInverse, s.extent n⟩ := by
    obtain ⟨op, found, -⟩ := planned.stands there
    exact ⟨op, nodes ▸ found⟩
  refine ⟨fun there => planned.colour wired sourced nodes budget there, ?_, ?_, ?_⟩
  all_goals
    intro i n there
    obtain ⟨op, found⟩ := found there
    simp [Plan.access, access, found]

theorem passed_renamed {kernel : Kernel} {table : List (Nat × Nat)} {place : Nat}
    {args : List Value} (passes : List.Forall₂ (Passes table place) kernel.slots args) :
    List.Forall₂ (Value.Renamed (Option.Rel fun i n => (n, i) ∈ table)) args kernel.passed := by
  rw [Kernel.passed, List.forall₂_map_right_iff]
  refine passes.flip.imp fun v slot passes => ?_
  cases passes with
  | unbound => exact .sampler .none
  | sampler there => exact .sampler (.some there)
  | plain other => exact renamed_self fun n same => absurd same (other n)

/-- A plan that is made of a kernel emits what the kernel does in the graph itself. -/
theorem Wired.emit_eq (wired : s.Wired) (sourced : s.Sourced) {limits : Limits}
    (accepted : Plan.forRecords s limits k = .ok plan) (budget : Nat) (p : Point Float)
    (records : Array (Rgba Float32)) : plan.emit budget p records = s.emit budget k p records := by
  have made := wired.forRecords_cases limits k
  rw [accepted] at made
  obtain ⟨planner, nodes, prepared⟩ := made
  obtain ⟨program, args, compiled, -, passes, found⟩ := prepared.holds
  have planned := prepared.planned
  have unique : Relator.BiUnique fun i n => (n, i) ∈ planner.planned :=
    ⟨fun _ _ _ h h' => planned.once h h', fun _ _ _ h h' => planned.apart h h'⟩
  have hosts := (planned.access_alike wired sourced nodes budget).host p
    fun c (rs : Array (Rgba Float32)) => ((.ok () : Except Trap Unit), rs.push c)
  have runs := Program.run_renamed hosts (sourced.plain compiled) (passed_renamed passes)
    (.inl (faithful_of_biUnique unique)) budget records
  rw [← nodes] at found
  have result := recordsFrom_congr runs.result
    (program.run (s.kernel k).passed (s.host budget p fun c rs => (.ok (), rs.push c)) budget
      records).state
  simp only [Plan.emit, found, emit, compiled, host]
  rw [host] at result
  rw [← result, ← runs.state]
  rfl

end

/-! ## What is wrong apart from places -/

/-- The faults that are there wherever nodes are placed. -/
def placeless (faults : List Fault) : List Fault :=
  faults.filter (· ≠ .invalidGraph .tooLarge)

@[simp] theorem placeless_append (faults faults' : List Fault) :
    placeless (faults ++ faults') = placeless faults ++ placeless faults' :=
  List.filter_append ..

theorem placeless_slotFaults (kernel : String) (place : Nat → Nat) (below : Nat → List Fault)
    (slot : Argument × Option Value) : placeless (slotFaults kernel place below slot) =
      slotFaults kernel (fun _ => 0) (placeless ∘ below) slot := by
  unfold slotFaults
  split
  · split <;> rfl
  · rw [placeless_append]
    exact congrArg (placeless _ ++ ·) (by split <;> rfl)
  · rfl

theorem placeless_kernelFaults (place : Nat → Nat) (below : Nat → List Fault) (target : Target) :
    placeless (s.kernelFaults place below k target) =
      s.kernelFaults (fun _ => 0) (placeless ∘ below) k target := by
  unfold kernelFaults
  cases (s.kernel k).program? with
  | none => rfl
  | some program =>
      dsimp only
      rw [placeless_append]
      congr 1
      · split <;> rfl
      · simp only [placeless, List.filter_flatMap]
        exact List.flatMap_congr fun slot _ => placeless_slotFaults ..

/-- What is wrong with a node, but for places, is settled without them. -/
theorem placeless_faults (wired : s.Wired) (place : Nat → Nat) (n : Nat) :
    placeless (s.faults place n) = s.faults (fun _ => 0) n := by
  induction n using wired.wellFounded.induction with
  | _ n ih =>
  rw [wired.faults_eq, wired.faults_eq, ← faultsOf_congr (placeless ∘ s.faults place) _ n ih]
  unfold faultsOf
  split
  · rfl
  · rfl
  · rfl
  · exact placeless_kernelFaults ..
  · rw [placeless_append]
    exact congrArg (placeless _ ++ ·) (by split <;> rfl)
  · rfl

/-- The first fault comes first among the placeless ones too, unless it is about a place. -/
theorem head?_placeless {faults : List Fault}
    (fits : faults.head? ≠ some (.invalidGraph .tooLarge)) :
    (placeless faults).head? = faults.head? := by
  cases faults with
  | nil => rfl
  | cons fault rest =>
      have other : fault ≠ .invalidGraph .tooLarge := fun same => fits (congrArg some same)
      rw [placeless, List.filter_cons_of_pos (by simpa using other)]
      rfl

/-- What is wrong with the kernel, or with what it reads, stays the same, but for places. -/
theorem kernelFaults_filled (filled : s.Filled k s') (wired : s.Wired)
    (wired' : s'.Wired) (place place' : Nat → Nat) (target : Target) :
    placeless (s'.kernelFaults place' (s'.faults place') k target) =
      placeless (s.kernelFaults place (s.faults place) k target) := by
  have below : placeless ∘ s.faults place = s.faults fun _ => 0 :=
    funext (placeless_faults wired place)
  have below' : placeless ∘ s'.faults place' = s'.faults fun _ => 0 :=
    funext (placeless_faults wired' place')
  rw [placeless_kernelFaults, placeless_kernelFaults, below, below']
  unfold kernelFaults
  rw [filled.rebinds.program]
  cases (s.kernel k).program? with
  | none => rfl
  | some program =>
      have slots : (s.kernel k).slots.map
            (slotFaults program.kernelName (fun _ => 0) (s.faults fun _ => 0)) =
          (s'.kernel k).slots.map
            (slotFaults program.kernelName (fun _ => 0) (s'.faults fun _ => 0)) := by
        rw [← List.forall₂_eq_eq_eq, List.forall₂_map_left_iff, List.forall₂_map_right_iff]
        refine ((List.forall₂_and_left _ _).2 ⟨fun _ => id, filled.slots⟩).imp ?_
        rintro slot _ ⟨there, fills⟩
        cases fills with
        | @empty a c sampler nothing =>
            have clean := faults_of_empty wired' (fun _ => 0) (filled.rebinds.node c ▸ nothing)
            simp [slotFaults, sampler, clean]
        | same =>
            refine slotFaults_congr (fun c bound => ?_) there
            exact (filled.rebinds.faults wired wired' _ (wired.apart bound)).symm
      simp only [List.flatMap_def, slots]

/-- Two outcomes correspond if both are settled by the first of the same faults, but for places. -/
theorem corresponds_of_head {α : Type} {R : α → α → Prop} {x y : Except Fault α}
    {faults faults' : List Fault} (hx : ∀ fault, x = .error fault ↔ faults.head? = some fault)
    (hy : ∀ fault, y = .error fault ↔ faults'.head? = some fault)
    (same : placeless faults' = placeless faults) (fits : x ≠ .error (.invalidGraph .tooLarge))
    (fits' : y ≠ .error (.invalidGraph .tooLarge)) (both : ∀ a b, x = .ok a → y = .ok b → R a b) :
    Corresponds R x y := by
  have first : faults'.head? = faults.head? := by
    rw [← head?_placeless (mt (hx _).2 fits), ← head?_placeless (mt (hy _).2 fits'), same]
  rw [first] at hy
  cases x with
  | error fault =>
      rw [(hy fault).2 ((hx fault).1 rfl)]
      exact .error fault
  | ok a =>
      cases y with
      | error fault => cases (hx fault).2 ((hy fault).1 rfl)
      | ok b => exact .ok (both a b rfl rfl)

/-- Plans that render alike render the same for their stores. -/
theorem render_alike {limits : Limits} {n width height : Nat} {rect : Rect Float}
    (same : Corresponds (fun plan plan' => plan.render (runForColour limits.instructions) rect width
        height = plan'.render (runForColour limits.instructions) rect width height)
      (Plan.forImage s limits n) (Plan.forImage s' limits n)) :
    s.render runForColour limits n rect width height =
      s'.render runForColour limits n rect width height := by
  unfold render
  generalize Plan.forImage s limits n = made, Plan.forImage s' limits n = made' at same
  split
  -- by reduction alone the kernel would compare what is not reached
  · simp only [throw, throwThe, MonadExceptOf.throw, Bind.bind, Except.bind]
  · cases same with
    | error fault => rfl
    | ok same => exact congrArg (Except.mapError Fault.ofTrap) same

theorem reduce_alike {limits : Limits} {width height : Nat} {rect : Rect Float}
    (same : Corresponds (fun plan plan' => plan.records limits.instructions rect width height =
        plan'.records limits.instructions rect width height)
      (Plan.forRecords s limits k) (Plan.forRecords s' limits k)) :
    s.reduce limits (some k) rect width height = s'.reduce limits (some k) rect width height := by
  unfold reduce
  dsimp only
  generalize Plan.forRecords s limits k = made, Plan.forRecords s' limits k = made' at same
  cases same with
  | error fault => rfl
  | ok same => exact congrArg (Except.mapError Fault.ofTrap) same

/-- No pixel over the rectangle asks for a place that moves. -/
def SteadyOver (s : Store Float Float32) (budget k : Nat) (rect : Rect Float)
    (width height : Nat) : Prop :=
  ∀ x < width, ∀ y < height, s.Steady budget k (rect.pixelCenter width height x y)

/-- The limit on the depth allows all ways down from an image, and all of it finds a place. -/
structure Room (s : Store Float Float32) (limits : Limits) (n : Nat) : Prop where
  within : ∀ l m, s.Path n l m → l ≤ limits.depth
  places : Plan.forImage s limits n ≠ .error (.invalidGraph .tooLarge)

/-- So for a kernel that emits records, which stands above the images that it samples. -/
structure RoomBelow (s : Store Float Float32) (limits : Limits) (k : Nat) : Prop where
  within : ∀ c ∈ (s.kernel k).boundSamplers, ∀ l m, s.Path c l m → l + 1 ≤ limits.depth
  places : Plan.forRecords s limits k ≠ .error (.invalidGraph .tooLarge)

/-- Nobody who looks at the kernel's images, or at its records, can tell the stores apart, as long
    as neither graph is too deep or too large. -/
structure Unnoticed (s : Store Float Float32) (k : Nat) (s' : Store Float Float32) : Prop where
  /-- An image of the kernel is refused for the same fault, or else it has the same colours and
      fails at the same points for the same reasons. -/
  image : ∀ limits n policy, s.node n = .kernel k policy →
    s.Room limits n → s'.Room limits n →
    Corresponds (fun plan plan' => ∀ budget p, s.Steady budget k p → s'.Steady budget k p →
        plan.rootColour (runForColour budget) p = plan'.rootColour (runForColour budget) p)
      (Plan.forImage s limits n) (Plan.forImage s' limits n)
  /-- So with what the kernel emits, if that is what it does. -/
  records : ∀ limits, s.RoomBelow limits k → s'.RoomBelow limits k →
    Corresponds (fun plan plan' => ∀ budget p rs, s.Steady budget k p → s'.Steady budget k p →
        plan.emit budget p rs = plan'.emit budget p rs)
      (Plan.forRecords s limits k) (Plan.forRecords s' limits k)
  /-- Over every rectangle the same pixels are rendered, or none for the same fault. -/
  rendered : ∀ limits n policy, s.node n = .kernel k policy →
    s.Room limits n → s'.Room limits n →
    ∀ rect width height, s.SteadyOver limits.instructions k rect width height →
      s'.SteadyOver limits.instructions k rect width height →
      s.render runForColour limits n rect width height =
        s'.render runForColour limits n rect width height
  /-- And the same records are gathered. -/
  reduced : ∀ limits, s.RoomBelow limits k → s'.RoomBelow limits k →
    ∀ rect width height, s.SteadyOver limits.instructions k rect width height →
      s'.SteadyOver limits.instructions k rect width height →
      s.reduce limits (some k) rect width height = s'.reduce limits (some k) rect width height

theorem blind_of_addressable (sourced : s.Sourced) {program : Program}
    (compiled : (s.kernel k).program? = some program) (addressable : program.Addressable)
    (bound : ∀ a, (a, none) ∈ (s.kernel k).slots → a.ty = .sampler) {σ : Type} (host : Host σ) :
    program.Blind (s.kernel k).passed host := by
  obtain ⟨source, made⟩ := sourced.compiled compiled
  exact Language.blind_of_compile made addressable (typed_passed sourced compiled bound) host

theorem colour_image (wired : s.Wired) (sourced : s.Sourced) {n : Nat} {policy : ExtentPolicy Float}
    (image : s.node n = .kernel k policy) {program : Program}
    (compiled : (s.kernel k).program? = some program) (budget : Nat) (p : Point Float) :
    s.colour (runForColour budget) n p = colourFrom program (program.run (s.kernel k).passed
      (s.host budget p fun _ st => (.error .emitOutside, st)) budget ()).result := by
  rw [wired.colour_eq sourced, colourOf, image]
  simp only [compiled]
  rfl

section

variable (filled : s.Filled k s') (wired : s.Wired) (wired' : s'.Wired) (sourced : s.Sourced)
  (sourced' : s'.Sourced)
  (addressable : ∀ program, (s.kernel k).program? = some program → program.Addressable)

include filled wired wired' sourced sourced' addressable

theorem image_filled {limits : Limits} {n : Nat} {policy : ExtentPolicy Float}
    (image : s.node n = .kernel k policy) (room : s.Room limits n) (room' : s'.Room limits n) :
    Corresponds (fun plan plan' => ∀ budget p, s.Steady budget k p → s'.Steady budget k p →
        plan.rootColour (runForColour budget) p = plan'.rootColour (runForColour budget) p)
      (Plan.forImage s limits n) (Plan.forImage s' limits n) := by
  have image' : s'.node n = .kernel k policy := (filled.rebinds.node n).trans image
  have exactly := wired.plansExactly
  have exactly' := wired'.plansExactly
  have faults : placeless (s'.faults (s'.place [n]) n) = placeless (s.faults (s.place [n]) n) := by
    rw [wired.faults_eq, wired'.faults_eq, faultsOf, faultsOf, image, image']
    exact kernelFaults_filled filled wired wired' _ _ .normal
  refine corresponds_of_head (exactly.refused limits n room.within)
    (exactly'.refused limits n room'.within) faults room.places room'.places
    fun plan plan' made made' budget p steady steady' => ?_
  have needs : s.Needs n k := ⟨n, .refl, isImageOf_iff.2 ⟨policy, image⟩⟩
  have plannable := (exactly.images limits n room.within).1 ⟨plan, made⟩
  obtain ⟨program, compiled, normal⟩ := plannable.compiled k needs
  have compiled' := filled.rebinds.program.trans compiled
  have runs := run_filled filled wired wired' sourced sourced' compiled
    (fun host => blind_of_addressable sourced compiled (addressable program compiled)
      (plannable.bound k needs) host) steady steady'
    (fun _ _ => by rw [normal]; rfl : ∀ (c : Rgba Float32) (st : Unit),
      ((Except.error Trap.emitOutside : Except Trap Unit), st).1 = emission program.target) ()
  rw [wired.rootColour_eq sourced made, wired'.rootColour_eq sourced' made',
    colour_image wired sourced image compiled, colour_image wired' sourced' image' compiled']
  exact colourFrom_congr runs.result

theorem records_filled {limits : Limits} (room : s.RoomBelow limits k)
    (room' : s'.RoomBelow limits k) :
    Corresponds (fun plan plan' => ∀ budget p rs, s.Steady budget k p → s'.Steady budget k p →
        plan.emit budget p rs = plan'.emit budget p rs)
      (Plan.forRecords s limits k) (Plan.forRecords s' limits k) := by
  have exactly := wired.plansExactly
  have exactly' := wired'.plansExactly
  have faults := kernelFaults_filled filled wired wired' (s.place (s.kernel k).boundSamplers)
    (s'.place (s'.kernel k).boundSamplers) .reduce
  refine corresponds_of_head (exactly.unemitted limits k room.within)
    (exactly'.unemitted limits k room'.within) faults room.places room'.places
    fun plan plan' made made' budget p rs steady steady' => ?_
  have emittable := (exactly.emitters limits k room.within).1 ⟨plan, made⟩
  obtain ⟨program, compiled, reduce⟩ := emittable.compiled
  have compiled' := filled.rebinds.program.trans compiled
  have runs := run_filled filled wired wired' sourced sourced' compiled
    (fun host => blind_of_addressable sourced compiled (addressable program compiled)
      emittable.bound host) steady steady'
    (fun _ _ => by rw [reduce]; rfl : ∀ (c : Rgba Float32) (st : Array (Rgba Float32)),
      ((Except.ok () : Except Trap Unit), st.push c).1 = emission program.target) rs
  rw [wired.emit_eq sourced made, wired'.emit_eq sourced' made']
  simp only [emit, compiled, compiled', ← runs.state]
  exact recordsFrom_congr runs.result _

theorem unnoticed : s.Unnoticed k s' where
  image _ _ _ image room room' :=
    image_filled filled wired wired' sourced sourced' addressable image room room'
  records _ room room' :=
    records_filled filled wired wired' sourced sourced' addressable room room'
  rendered limits n policy image room room' rect width height steady steady' := by
    refine render_alike ((image_filled filled wired wired' sourced sourced' addressable image room
      room').imp fun plan plan' alike => Pixel.Grid.build_congr fun x column y row => ?_)
    exact alike _ _ (steady x column y row) (steady' x column y row)
  reduced limits room room' rect width height steady steady' := by
    refine reduce_alike ((records_filled filled wired wired' sourced sourced' addressable room
      room').imp fun plan plan' alike => Plan.records_congr fun x column y row rs => ?_)
    exact alike _ _ rs (steady x column y row) (steady' x column y row)

end

end Store

/-- Throughout a history, a sampler of a kernel that is unbound can be given an empty image, and
    that goes unnoticed if the numbers of the kernel's functions and instructions fit into its
    code. -/
theorem Reached.empties_unnoticed {ops : List (Operation Float Float32)} {s : Store Float Float32}
    (h : Reached runForColour ops s) {k : Nat} {edits : List Edit}
    (fills : ∀ e ∈ edits, e.Fills s k)
    (addressable : ∀ program, (s.kernel k).program? = some program → program.Addressable) :
    (∀ e ∈ edits, ∀ before, ((s.edited k before).edit k e).result = .ok ()) ∧
      s.Unnoticed k (s.edited k edits) := by
  have coherent := (h.follows k).coherent
  obtain ⟨ops', h'⟩ := h.edited fun e there => names_of_fills (fills e there)
  refine ⟨fun e there before => ?_, ?_⟩
  · obtain ⟨i, a, c, landed, -⟩ :=
      Store.landing_of_fills coherent.names coherent.places (fills e there)
    rw [Store.results_edited]
    exact Store.edit_ok_iff.2 ⟨i, _, landed⟩
  · exact Store.unnoticed (Store.filled_edited coherent.names coherent.places fills) (.of_reached h)
      (.of_reached h') (.of_reached h) (.of_reached h') addressable

/-- A kernel that reads its image where it stands. -/
def readSource : String := "kernel vec4 read(sampler s) \x7b return sample(s, samplerCoord(s)); \x7d"

def readProgram : Program where
  functions := #[⟨"read", [.sampler], .vec4, #[.sampler],
    #[.load 0, .load 0, .builtin .samplerCoord 1, .builtin .sample 2, .ret, .missingReturn]⟩]
  consts := #[]
  entry := 0
  target := .normal
  arguments := [⟨"s", .sampler, false⟩]

theorem compile_readSource : Language.compile readSource = .ok readProgram := by
  have made : (Language.compile readSource).toOption = some readProgram := by decide +kernel
  cases h : Language.compile readSource with
  | error d => rw [h] at made; cases made
  | ok p => rw [h] at made; cases made; rfl

/-- An empty image, and one that is read by a kernel without having been bound. -/
def oneEmpty : Store Float Float32 where
  kernels := #[⟨readSource, some readProgram, some [], [none], []⟩]
  nodes := #[.empty, .kernel 0 .infinite]
  canvases := #[]
  subscriptions := 0

theorem reached_oneEmpty : ∃ ops, Reached runForColour ops oneEmpty := by
  have kernel : Reached runForColour [.newKernel] ⟨#[.new], #[], #[], 0⟩ := .step .new trivial
  have compiled : Reached runForColour [.compile 0 readSource, .newKernel]
      ⟨#[Kernel.new.compile readSource], #[], #[], 0⟩ :=
    .step kernel (show 0 < (#[Kernel.new] : Array Kernel).size by decide)
  have ready : Kernel.new.compile readSource =
      ⟨readSource, some readProgram, some [], [none], []⟩ := by
    simp only [Kernel.compile, compile_readSource]
    rfl
  rw [ready] at compiled
  have named : (Operation.newNode .empty).Names { oneEmpty with nodes := #[] } := trivial
  have empty : Reached runForColour _ { oneEmpty with nodes := #[.empty] } := compiled.step named
  have named : (Operation.newNode (.kernel 0 .infinite)).Names
      { oneEmpty with nodes := #[.empty] } := (show 0 < 1 by decide)
  exact ⟨_, empty.step named⟩

theorem oneEmpty_unnoticed : ∃ plan plan', Plan.forImage oneEmpty .standard 1 = .ok plan ∧
    Plan.forImage (oneEmpty.edited 0 [.bind "s" (some (.sampler (some 0)))]) .standard 1 =
      .ok plan' ∧ plan.rootColour (runForColour 5) ⟨Scalar.half, Scalar.one⟩ =
        plan'.rootColour (runForColour 5) ⟨Scalar.half, Scalar.one⟩ := by
  obtain ⟨ops, reached⟩ := reached_oneEmpty
  have fills : ∀ e ∈ [Edit.bind "s" (some (.sampler (some 0)))], e.Fills oneEmpty 0 := by
    rintro e (_ | ⟨_, ⟨⟩⟩)
    exact ⟨"s", 0, rfl, ⟨_, .head _, rfl, rfl⟩, rfl, by decide, rfl⟩
  have addressable : ∀ program, (oneEmpty.kernel 0).program? = some program →
      program.Addressable := by
    rintro _ ⟨⟩
    exact ⟨by decide, by decide⟩
  have unnoticed := (reached.empties_unnoticed fills addressable).2
  obtain ⟨ops', reached'⟩ := reached.edited fun e there => names_of_fills (fills e there)
  have first : ∃ plan, Plan.forImage oneEmpty .standard 1 = .ok plan := ⟨_, rfl⟩
  have second : ∃ plan, Plan.forImage
      (oneEmpty.edited 0 [.bind "s" (some (.sampler (some 0)))]) .standard 1 = .ok plan := ⟨_, rfl⟩
  generalize changed : oneEmpty.edited 0 [.bind "s" (some (.sampler (some 0)))] = s' at *
  obtain ⟨plan, first⟩ := first
  obtain ⟨plan', second⟩ := second
  have room : oneEmpty.Room .standard 1 :=
    ⟨fun _ _ way => ((Store.Wired.of_reached reached).path_le way).trans (by decide),
      fun refused => nomatch first.symm.trans refused⟩
  have room' : s'.Room .standard 1 :=
    ⟨fun _ _ way => ((Store.Wired.of_reached reached').path_le way).trans (changed ▸ by decide),
      fun refused => nomatch second.symm.trans refused⟩
  have same := unnoticed.image .standard 1 .infinite rfl room room'
  rw [first, second] at same
  cases same with
  | ok same =>
      refine ⟨plan, plan', first, second, same 5 ⟨Scalar.half, Scalar.one⟩
        (Store.steady_of_finite ?_) (Store.steady_of_finite ?_)⟩
      · decide +kernel
      · rw [← changed]
        decide +kernel

end PixelKernel.Graph
