import PixelKernel.Proofs.Graph.Kernels
import PixelKernel.Proofs.Graph.Planning
import PixelKernel.Proofs.Graph.Runners
import PixelKernel.Proofs.Number.Words

/-! # Plans agree with the graph

A node of a plan has the colour that the graph itself gives the node that it was planned for. By
induction on places: a planned node reads nodes that were planned before it, and a kernel cannot
tell places in the plan from numbers of nodes.
-/

namespace PixelKernel.Graph

open PixelKernel.Language (Argument Program Value)

namespace Store

/-- Programs come from texts, and what is bound has the types that they declare. -/
structure Sourced {κ χ : Type} (s : Store κ χ) : Prop where
  compiled : ∀ {k program}, (s.kernel k).program? = some program →
    ∃ source, Language.compile source = .ok program
  places : ∀ k, (s.kernel k).bindings.length = ((s.kernel k).arguments?.getD []).length
  typed : ∀ {k slot}, slot ∈ (s.kernel k).slots → ∀ v, slot.2 = some v →
    v.ty = slot.1.ty.operand

theorem Sourced.of_reached {κ χ : Type} [Scalar κ] [Scalar χ] [Narrow κ χ]
    {run : Nat → Runner κ χ} {ops : List (Operation κ χ)} {s : Store κ χ}
    (h : Reached run ops s) : s.Sourced where
  compiled {k program} ready := by
    obtain ⟨source, -, made⟩ := ((h.follows k).coherent.program program).1 ready
    exact ⟨source, made⟩
  places k := (h.follows k).coherent.places
  typed {k slot} := (h.follows k).coherent.typed slot

theorem Sourced.plain {κ χ : Type} {s : Store κ χ} (sourced : s.Sourced) {k : Nat}
    {program : Program} (ready : (s.kernel k).program? = some program) :
    ∀ v ∈ program.consts, v.Plain := by
  obtain ⟨source, made⟩ := sourced.compiled ready
  exact Language.plain_of_compile made

/-- A value in which every bound node keeps its number. -/
theorem renamed_self {q : Nat → Nat → Prop} {v : Value} (h : ∀ n, v = .sampler (some n) → q n n) :
    v.Renamed (Option.Rel q) v := by
  cases v with
  | sampler n =>
      cases n with
      | none => exact .sampler .none
      | some n => exact .sampler (.some (h n rfl))
  | _ => exact .plain nofun

variable {s : Store Float Float32}

/-! ## The graph itself -/

/-- The colour of a node hangs on those of the nodes that it reads and on no others. -/
theorem colourOf_congr (sourced : s.Sourced) (budget : Nat) (f g) (n : Nat)
    (same : ∀ c ∈ s.children n, f c = g c) :
    s.colourOf (runForColour budget) f n = s.colourOf (runForColour budget) g n := by
  funext p
  unfold colourOf
  unfold children at same
  cases node : s.node n with
  | empty | buffer | canvas => rfl
  | transform child t =>
      rw [node] at same
      dsimp only
      rw [same child (List.mem_singleton_self child)]
  | crop child rect =>
      rw [node] at same
      dsimp only
      rw [same child (List.mem_singleton_self child)]
  | kernel k policy =>
      rw [node] at same
      dsimp only at same ⊢
      cases ready : (s.kernel k).program? with
      | none => rfl
      | some program =>
          let q (i j : Nat) : Prop := i = j ∧ i ∈ (s.kernel k).boundSamplers
          have alike : (s.access f).Alike q (s.access g) := by
            refine ⟨?_, ?_, ?_, ?_⟩
            · rintro i _ ⟨rfl, bound⟩
              exact same i bound
            all_goals
              rintro i _ ⟨rfl, -⟩
              rfl
          have args : List.Forall₂ (Value.Renamed (Option.Rel q)) (s.kernel k).passed
              (s.kernel k).passed := by
            rw [List.forall₂_same]
            intro v passed
            obtain ⟨⟨a, w⟩, slot, rfl⟩ := List.mem_map.1 passed
            refine renamed_self fun n bound => ⟨rfl, among_slots_iff.1 ⟨a, ?_⟩⟩
            cases w with
            | none => cases bound
            | some w => exact bound ▸ slot
          have unique : Relator.BiUnique q :=
            ⟨fun _ _ _ h h' => h.1.trans h'.1.symm, fun _ _ _ h h' => h.1.symm.trans h'.1⟩
          exact runForColour_alike alike (sourced.plain ready) args (.inl unique) budget p

/-- A node has the colour that follows from those of the nodes that it reads. -/
theorem Wired.colour_eq (wired : s.Wired) (sourced : s.Sourced) (budget n : Nat) :
    s.colour (runForColour budget) n =
      s.colourOf (runForColour budget) (s.colour (runForColour budget)) n :=
  wired.unfold (fun fuel n => (rfl : s.colourAt (runForColour budget) (fuel + 1) n = _))
    (colourOf_congr sourced budget) n

/-! ## The plan -/

variable {p : Planner Float Float32} {plan : Plan Float Float32}

theorem Planned.colour (planned : s.Planned p) (wired : s.Wired) (sourced : s.Sourced)
    (nodes : plan.nodes = p.nodes) (budget : Nat) {i n : Nat} (there : (n, i) ∈ p.planned) :
    plan.colour (runForColour budget) i = s.colour (runForColour budget) n := by
  induction i using Nat.strong_induction_on generalizing n with
  | _ i ih =>
  funext point
  obtain ⟨op, found, depicts⟩ := planned.stands there
  rw [← nodes] at found
  rw [wired.colour_eq sourced, Plan.colour, found]
  unfold colourOf
  dsimp only
  generalize s.node n = node at depicts ⊢
  cases depicts with
  | empty => rfl
  | buffer b => dsimp only; rw [Words.float_sub_zero, Words.float_sub_zero]
  | noCanvas none_ => simp only [none_]
  | canvas there => simp only [there]
  | transform below before invertible =>
      simp only [before, invertible, dif_pos, ih _ before below]
  | crop below before => simp only [before, dif_pos, ih _ before below]
  | @kernel k policy program args compiled normal passed =>
      simp only [compiled]
      let q (j m : Nat) : Prop := (m, j) ∈ p.planned ∧ j < i
      have stands {j m} (h : q j m) : ∃ op, plan.nodes[j]? =
          some ⟨op, s.toWorld m, (s.toWorld m).reciprocalInverse, s.extent m⟩ := by
        obtain ⟨op, found, -⟩ := planned.stands h.1
        exact ⟨op, nodes ▸ found⟩
      have alike : (plan.access fun j point =>
          if _h : j < i then plan.colour (runForColour budget) j point else .ok .transparent).Alike q
            (s.access (s.colour (runForColour budget))) := by
        refine ⟨?_, ?_, ?_, ?_⟩
        · rintro j m ⟨below, before⟩
          simp only [Plan.access, access, before, dif_pos, ih j before below]
        all_goals
          intro j m h
          obtain ⟨op, found⟩ := stands h
          simp [Plan.access, access, found]
      have renamed : List.Forall₂ (Value.Renamed (Option.Rel q)) args (s.kernel k).passed := by
        rw [Kernel.passed, List.forall₂_map_right_iff]
        refine passed.flip.imp fun v slot passes => ?_
        cases passes with
        | unbound => exact .sampler .none
        | sampler below before => exact .sampler (.some ⟨below, before⟩)
        | plain other => exact renamed_self fun n same => absurd same (other n)
      have unique : Relator.BiUnique q :=
        ⟨fun _ _ _ h h' => planned.once h.1 h'.1, fun _ _ _ h h' => planned.apart h.1 h'.1⟩
      exact runForColour_alike alike (sourced.plain compiled) renamed (.inl unique) budget point

/-- A plan that is made of an image has the colours of the image. -/
theorem Wired.rootColour_eq (wired : s.Wired) (sourced : s.Sourced) {limits : Limits} {n : Nat}
    (accepted : Plan.forImage s limits n = .ok plan) (budget : Nat) :
    plan.rootColour (runForColour budget) = s.colour (runForColour budget) n := by
  obtain ⟨p, nodes, visited⟩ := wired.forImage_ok accepted
  exact visited.planned.colour wired sourced nodes budget visited.found

end Store
end PixelKernel.Graph
