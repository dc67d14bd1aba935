import PixelKernel.Proofs.Graph.Agreement

/-! # Copies of graphs

Two graphs that differ in what they share, and in nothing else, have the same colours: nothing
that a node does depends on whether two of the nodes that it reads are one. The language keeps
this from programs, as long as their code calls the functions that their texts name.
-/

namespace PixelKernel.Graph

open Relation
open PixelKernel.Language (Argument Program Value)

namespace Store

variable {κ χ : Type}

/-! ## Alike nodes -/

/-- The same argument with the same binding, but for the number of a node. -/
def SlotAlike (r : Nat → Nat → Prop) (x y : Argument × Option Value) : Prop :=
  x.1 = y.1 ∧ Option.Rel (Value.Renamed (Option.Rel r)) x.2 y.2

/-- The same node, but for the numbers of the nodes that it reads. -/
inductive NodeAlike [Scalar κ] (s s' : Store κ χ) (r : Nat → Nat → Prop) :
    Node κ χ → Node κ χ → Prop where
  | empty : NodeAlike s s' r .empty .empty
  | buffer (b : Buffer κ χ) : NodeAlike s s' r (.buffer b) (.buffer b)
  | canvas {c c'} (same : s.canvases[c]? = s'.canvases[c']?) :
      NodeAlike s s' r (.canvas c) (.canvas c')
  /-- Kernels with one program and bindings that are alike. An extent that the caller computes
      has to come out the same if the extents of the inputs do. -/
  | kernel {k k' policy} (program : (s.kernel k).program? = (s'.kernel k').program?)
      (slots : List.Forall₂ (SlotAlike r) (s.kernel k).slots (s'.kernel k').slots)
      (asking : ∀ f, policy = .asking f → ∀ seen seen' : Nat → Rect κ,
        (∀ c ∈ (s.kernel k).boundSamplers, ∀ c' ∈ (s'.kernel k').boundSamplers,
          r c c' → seen c = seen' c') →
        f (s.kernel k) ((s.kernel k).inputExtents seen) =
          f (s'.kernel k') ((s'.kernel k').inputExtents seen')) :
      NodeAlike s s' r (.kernel k policy) (.kernel k' policy)
  | transform {c c'} (t : Affine κ) (below : r c c') :
      NodeAlike s s' r (.transform c t) (.transform c' t)
  | crop {c c'} (rect : Rect κ) (below : r c c') : NodeAlike s s' r (.crop c rect) (.crop c' rect)

/-- Nodes with copies of them. One node may have several copies, and several may have one. -/
def Copies [Scalar κ] (s s' : Store κ χ) (r : Nat → Nat → Prop) : Prop :=
  ∀ n n', r n n' → s.NodeAlike s' r (s.node n) (s'.node n')

variable {s s' : Store κ χ} {r : Nat → Nat → Prop}

/-! ## Bindings -/

/-- What is bound to a declared argument stands in its slot. -/
theorem join_binding {kernel : Kernel} {i : Nat} {a : Argument}
    (there : (kernel.arguments?.getD [])[i]? = some a) :
    (kernel.bindings[i]?).join = (kernel.slots[i]?).bind (·.2) := by
  simp only [Kernel.slots, List.zip, List.getElem?_zipWith, there]
  cases kernel.bindings[i]? <;> rfl

theorem rel_getElem? {α β : Type} {R : α → β → Prop} {xs : List α} {ys : List β}
    (h : List.Forall₂ R xs ys) (i : Nat) : Option.Rel R xs[i]? ys[i]? := by
  induction h generalizing i with
  | nil => exact .none
  | cons first _ ih =>
      cases i with
      | zero => exact .some first
      | succ i => exact ih i

/-- Bindings of one name are alike. -/
theorem argument_alike {kernel kernel' : Kernel} (program : kernel.program? = kernel'.program?)
    (slots : List.Forall₂ (SlotAlike r) kernel.slots kernel'.slots) (name : String) :
    (∃ fault, kernel.argument name = .error fault ∧ kernel'.argument name = .error fault) ∨
      ∃ v v', kernel.argument name = .ok v ∧ kernel'.argument name = .ok v' ∧
        Option.Rel (Value.Renamed (Option.Rel r)) v v' := by
  have arguments : kernel'.arguments? = kernel.arguments? := by
    rw [Kernel.arguments?, Kernel.arguments?, program]
  have places : kernel'.argumentIndex? name = kernel.argumentIndex? name := by
    rw [Kernel.argumentIndex?, Kernel.argumentIndex?, arguments]
  unfold Kernel.argument
  rw [places]
  cases index : kernel.argumentIndex? name with
  | none => exact .inl ⟨_, rfl, rfl⟩
  | some i =>
      obtain ⟨a, there, -⟩ := Kernel.argument_of_index index
      refine .inr ⟨_, _, rfl, rfl, ?_⟩
      rw [join_binding there, join_binding (arguments ▸ there)]
      have same := rel_getElem? slots i
      generalize kernel.slots[i]? = x at same ⊢
      generalize kernel'.slots[i]? = y at same ⊢
      cases same with
      | none => exact .none
      | some same => exact same.2

/-- Bindings that are alike are of nodes that correspond, or they are the same. -/
theorem binding_cases {v v' : Option Value}
    (same : Option.Rel (Value.Renamed (Option.Rel r)) v v') :
    (∃ c c', v = some (.sampler (some c)) ∧ v' = some (.sampler (some c')) ∧ r c c') ∨
      (v' = v ∧ ∀ c, v ≠ some (.sampler (some c))) := by
  cases same with
  | none => exact .inr ⟨rfl, nofun⟩
  | some same =>
      cases same with
      | plain plain =>
          refine .inr ⟨rfl, ?_⟩
          rintro c ⟨⟩
          exact plain rfl
      | sampler same =>
          cases same with
          | none => exact .inr ⟨rfl, nofun⟩
          | some alike => exact .inl ⟨_, _, rfl, rfl, alike⟩

/-- The nodes that are bound correspond. -/
theorem boundSamplers_alike {kernel kernel' : Kernel}
    (slots : List.Forall₂ (SlotAlike r) kernel.slots kernel'.slots) :
    List.Forall₂ r kernel.boundSamplers kernel'.boundSamplers := by
  refine List.rel_filterMap ?_ slots
  rintro ⟨a, v⟩ ⟨a', v'⟩ ⟨rfl, same⟩
  dsimp only at same ⊢
  rcases binding_cases same with ⟨c, c', rfl, rfl, alike⟩ | ⟨rfl, other⟩
  · exact .some alike
  · split
    · next bound => exact absurd (congrArg Prod.snd bound) (other _)
    · exact .none

/-- What runs are given is alike, and the nodes in it are bound. -/
theorem passed_alike {kernel kernel' : Kernel}
    (slots : List.Forall₂ (SlotAlike r) kernel.slots kernel'.slots) :
    List.Forall₂ (Value.Renamed (Option.Rel fun c c' => c ∈ kernel.boundSamplers ∧ r c c'))
      kernel.passed kernel'.passed := by
  rw [Kernel.passed, Kernel.passed, List.forall₂_map_left_iff, List.forall₂_map_right_iff]
  refine ((List.forall₂_and_left _ _).2 ⟨fun _ => id, slots⟩).imp ?_
  rintro ⟨a, v⟩ ⟨a', v'⟩ ⟨slot, rfl, same⟩
  dsimp only at same ⊢
  rcases binding_cases same with ⟨c, c', rfl, rfl, alike⟩ | ⟨rfl, other⟩
  · exact .sampler (.some ⟨among_slots_iff.1 ⟨a, slot⟩, alike⟩)
  · cases v' with
    | none => exact .sampler .none
    | some v => exact renamed_self fun n bound => absurd (congrArg some bound) (other n)

/-! ## Extents and maps -/

section

variable [Scalar κ]

theorem extentOf_alike (copies : s.Copies s' r) {f g : Nat → Rect κ} {n n' : Nat} (alike : r n n')
    (below : ∀ c ∈ s.children n, ∀ c', r c c' → f c = g c') : s.extentOf f n = s'.extentOf g n' := by
  have same := copies n n' alike
  unfold extentOf
  unfold children at below
  generalize s.node n = node at same below ⊢
  generalize s'.node n' = node' at same ⊢
  cases same with
  | empty | buffer => rfl
  | canvas same => simp only [same]
  | transform t child => simp only [below _ (List.mem_singleton_self _) _ child]
  | crop rect child => simp only [below _ (List.mem_singleton_self _) _ child]
  | @kernel k k' policy program slots asking =>
      dsimp only at below ⊢
      cases policy with
      | infinite | fixed => rfl
      | asking ask =>
          exact asking ask rfl f g fun c bound c' _ alike => below c bound c' alike
      | standard argument dx dy =>
          cases argument with
          | none =>
              have extents :
                  (s.kernel k).boundSamplers.map f = (s'.kernel k').boundSamplers.map g := by
                rw [← List.forall₂_eq_eq_eq, List.forall₂_map_left_iff, List.forall₂_map_right_iff]
                refine ((List.forall₂_and_left _ _).2 ⟨below, boundSamplers_alike slots⟩).imp ?_
                exact fun c c' ⟨same, alike⟩ => same c' alike
              dsimp only
              rw [extents]
          | some name =>
              dsimp only
              rcases argument_alike program slots name with
                ⟨fault, none_, none_'⟩ | ⟨v, v', bound, bound', same⟩
              · rw [none_, none_']
              · rw [bound, bound']
                rcases binding_cases same with ⟨c, c', rfl, rfl, alike⟩ | ⟨rfl, other⟩
                · dsimp only
                  rw [below c (mem_boundSamplers_of_argument bound) c' alike]
                · split
                  · next same => exact absurd (Except.ok.inj same) (other _)
                  · rfl

theorem Copies.extent (copies : s.Copies s' r) (wired : s.Wired) (wired' : s'.Wired) {n n' : Nat}
    (alike : r n n') : s.extent n = s'.extent n' := by
  induction n using wired.wellFounded.induction generalizing n' with
  | _ n ih =>
  rw [wired.extent_eq, wired'.extent_eq]
  exact extentOf_alike copies alike fun c edge c' alike => ih c edge alike

theorem Copies.toWorld (copies : s.Copies s' r) (wired : s.Wired) (wired' : s'.Wired) {n n' : Nat}
    (alike : r n n') : s.toWorld n = s'.toWorld n' := by
  induction n using wired.wellFounded.induction generalizing n' with
  | _ n ih =>
  rw [wired.toWorld_eq, wired'.toWorld_eq]
  have same := copies n n' alike
  unfold toWorldOf
  unfold children at ih
  generalize s.node n = node at same ih ⊢
  generalize s'.node n' = node' at same ⊢
  cases same with
  | empty | buffer | canvas | kernel => rfl
  | transform t child => simp only [ih _ (List.mem_singleton_self _) child]
  | crop rect child => simp only [ih _ (List.mem_singleton_self _) child]

end

/-! ## Colours -/

/-- All programs that reading the node may run keep their numbers in full. -/
def Addressable (s : Store κ χ) (n : Nat) : Prop :=
  ∀ k program, s.Needs n k → (s.kernel k).program? = some program → program.Addressable

/-- What a run in the plan is given has the types that the program declares. -/
theorem typed_passed (sourced : s.Sourced) {k : Nat} {program : Program}
    (ready : (s.kernel k).program? = some program)
    (bound : ∀ a, (a, none) ∈ (s.kernel k).slots → a.ty = .sampler) :
    (s.kernel k).passed.map Value.ty = program.arguments.map (·.ty.operand) := by
  have declared : (s.kernel k).arguments?.getD [] = program.arguments := by
    rw [Kernel.arguments?, ready]
    rfl
  have slots : (s.kernel k).slots.map Prod.fst = program.arguments := by
    have places := sourced.places k
    rw [Kernel.slots, declared] at *
    exact List.map_fst_zip places.ge
  rw [← slots, Kernel.passed, List.map_map, List.map_map]
  refine List.map_congr_left fun slot there => ?_
  obtain ⟨a, v⟩ := slot
  cases v with
  | none =>
      simp only [Function.comp_apply, bound a there]
      rfl
  | some v => exact sourced.typed there v rfl

section

variable {s s' : Store Float Float32} {p : Planner Float Float32}

/-- Alike nodes have the same colours if the nodes that they read do, and if different nodes stay
    different or no program would notice. -/
theorem colourOf_alike (copies : s.Copies s' r) (wired : s.Wired) (wired' : s'.Wired)
    (sourced : s.Sourced) (budget : Nat) {f g : Nat → Point Float → Except Language.Trap (Rgba Float32)}
    {n n' : Nat} (alike : r n n') (below : ∀ c ∈ s.children n, ∀ c', r c c' → f c = g c')
    (faithful : Relator.BiUnique r ∨ ∀ k policy program, s.node n = .kernel k policy →
      (s.kernel k).program? = some program →
        ∀ host : Language.Host Unit, program.Blind (s.kernel k).passed host) :
    s.colourOf (runForColour budget) f n = s'.colourOf (runForColour budget) g n' := by
  funext point
  have same := copies n n' alike
  unfold colourOf
  unfold children at below
  generalize s.node n = node at same below faithful ⊢
  generalize s'.node n' = node' at same ⊢
  cases same with
  | empty | buffer => rfl
  | canvas same => simp only [same]
  | transform t child => simp only [below _ (List.mem_singleton_self _) _ child]
  | crop rect child => simp only [below _ (List.mem_singleton_self _) _ child]
  | @kernel k k' policy program_ slots =>
      dsimp only at below ⊢
      rw [← program_]
      cases compiled : (s.kernel k).program? with
      | none => rfl
      | some program =>
          let q (c c' : Nat) : Prop := c ∈ (s.kernel k).boundSamplers ∧ r c c'
          have seen : (s.access f).Alike q (s'.access g) := by
            refine ⟨fun h => below _ h.1 _ h.2, fun h => ?_, fun h => ?_, fun h => ?_⟩
            · exact copies.toWorld wired wired' h.2
            · simp only [access, copies.toWorld wired wired' h.2]
            · exact copies.extent wired wired' h.2
          have faithful := faithful.imp
            (fun unique => (⟨fun _ _ _ h h' => unique.1 h.2 h'.2,
              fun _ _ _ h h' => unique.2 h.2 h'.2⟩ : Relator.BiUnique q))
            fun blind => blind k policy program rfl compiled
          exact runForColour_alike seen (sourced.plain compiled) (passed_alike slots) faithful budget
            point

theorem Copies.colour (copies : s.Copies s' r) (wired : s.Wired) (wired' : s'.Wired)
    (sourced : s.Sourced) (sourced' : s'.Sourced) (planned : s.Planned p) (budget : Nat)
    {n n' i : Nat} (there : (n, i) ∈ p.planned) (addressable : s.Addressable n) (alike : r n n') :
    s.colour (runForColour budget) n = s'.colour (runForColour budget) n' := by
  induction n using wired.wellFounded.induction generalizing n' i with
  | _ n ih =>
  rw [wired.colour_eq sourced, wired'.colour_eq sourced']
  refine colourOf_alike copies wired wired' sourced budget alike (fun c edge c' alike => ?_)
    (.inr fun k policy program image compiled host => ?_)
  · obtain ⟨j, -, child⟩ := planned.child there edge
    exact ih c edge child
      (fun k program needs => addressable k program (Leads.needs (.single edge) needs)) alike
  · obtain ⟨op, -, depicts⟩ := planned.stands there
    obtain ⟨source, made⟩ := sourced.compiled compiled
    have needs : s.Needs n k := ⟨n, .refl, isImageOf_iff.2 ⟨policy, image⟩⟩
    rw [image] at depicts
    cases depicts with
    | kernel _ _ passed =>
        refine Language.blind_of_compile made (addressable k program needs compiled)
          (typed_passed sourced compiled fun a slot => ?_) host
        obtain ⟨v, -, passes⟩ := passes_of_mem passed slot
        cases passes with
        | unbound sampler => exact sampler

/-- If no nodes are shared or taken apart, programs need not be looked into. -/
theorem Copies.colour_of_biUnique (copies : s.Copies s' r) (wired : s.Wired) (wired' : s'.Wired)
    (sourced : s.Sourced) (sourced' : s'.Sourced) (unique : Relator.BiUnique r) (budget : Nat)
    {n n' : Nat} (alike : r n n') :
    s.colour (runForColour budget) n = s'.colour (runForColour budget) n' := by
  induction n using wired.wellFounded.induction generalizing n' with
  | _ n ih =>
  rw [wired.colour_eq sourced, wired'.colour_eq sourced']
  exact colourOf_alike copies wired wired' sourced budget alike
    (fun c edge c' alike => ih c edge alike) (.inl unique)

end

/-- Plans stand for the graph that they were made of. -/
structure Represented (s : Store Float Float32) : Prop where
  /-- Read directly, a node has the colour that follows from those of the nodes that it reads. -/
  colours : ∀ budget n p, s.colour (runForColour budget) n p =
    s.colourOf (runForColour budget) (s.colour (runForColour budget)) n p
  maps : ∀ n, s.toWorld n = s.toWorldOf s.toWorld n
  extents : ∀ n, s.extent n = s.extentOf s.extent n
  /-- Reading a plan gives the same, be it a colour or a failure. -/
  plans : ∀ limits n plan, Plan.forImage s limits n = .ok plan → ∀ budget p,
    plan.rootColour (runForColour budget) p = s.colour (runForColour budget) n p
  /-- With copies in place of nodes that are shared, or shared nodes in place of copies, it stays
      the same. -/
  copies : ∀ ops s', Reached runForColour ops s' → ∀ r, s.Copies s' r → ∀ n n', r n n' →
    s.Addressable n → ∀ limits limits' plan plan', Plan.forImage s limits n = .ok plan →
      Plan.forImage s' limits' n' = .ok plan' → ∀ budget p,
        plan.rootColour (runForColour budget) p = plan'.rootColour (runForColour budget) p

end Store

/-- Whatever is done to a store, plans of it stand for it. -/
theorem Reached.represented {ops : List (Operation Float Float32)} {s : Store Float Float32}
    (h : Reached runForColour ops s) : s.Represented := by
  have wired := Store.Wired.of_reached h
  have sourced := Store.Sourced.of_reached h
  refine ⟨fun budget n p => ?_, wired.toWorld_eq, wired.extent_eq, fun limits n plan accepted budget p =>
    ?_, ?_⟩
  · exact congrFun (wired.colour_eq sourced budget n) p
  · exact congrFun (wired.rootColour_eq sourced accepted budget) p
  · intro ops' s' h' r copies n n' alike addressable limits limits' plan plan' accepted accepted'
      budget p
    have wired' := Store.Wired.of_reached h'
    have sourced' := Store.Sourced.of_reached h'
    obtain ⟨_, -, visited⟩ := wired.forImage_ok accepted
    rw [wired.rootColour_eq sourced accepted, wired'.rootColour_eq sourced' accepted',
      copies.colour wired wired' sourced sourced' visited.planned budget visited.found addressable
        alike]

/-- Two images of the copying kernel, whose sampler is unbound. -/
def twoImages : Store Float Float32 :=
  copyingInto #[.kernel 0 .infinite, .kernel 0 .infinite]

theorem reached_twoImages : Reached runForColour
    (.newNode (.kernel 0 .infinite) :: .newNode (.kernel 0 .infinite) :: copying) twoImages :=
  reached_copying.copyingImage.copyingImage

theorem copies_twoImages : twoImages.Copies twoImages fun n n' => n = 0 ∧ n' = 1 := by
  rintro _ _ ⟨rfl, rfl⟩
  refine .kernel rfl ?_ nofun
  exact .cons ⟨rfl, .none⟩ .nil

theorem twoImages_represented : ∃ plan plan', Plan.forImage twoImages .standard 0 = .ok plan ∧
    Plan.forImage twoImages .standard 1 = .ok plan' ∧ ∀ budget p,
      plan.rootColour (runForColour budget) p = plan'.rootColour (runForColour budget) p := by
  have addressable : twoImages.Addressable 0 := by
    rintro (_ | k) program - ready
    · cases ready
      exact ⟨by decide, by decide⟩
    · cases ready
  have first : ∃ plan, Plan.forImage twoImages .standard 0 = .ok plan := ⟨_, rfl⟩
  have second : ∃ plan, Plan.forImage twoImages .standard 1 = .ok plan := ⟨_, rfl⟩
  obtain ⟨plan, first⟩ := first
  obtain ⟨plan', second⟩ := second
  exact ⟨plan, plan', first, second, reached_twoImages.represented.copies _ _ reached_twoImages _
    copies_twoImages 0 1 ⟨rfl, rfl⟩ addressable _ _ _ _ first second⟩

end PixelKernel.Graph
