import PixelKernel.Proofs.Graph.History
import PixelKernel.Proofs.Graph.Paths

/-! # No node reads itself

Nodes are never changed and read older nodes, so a cycle has to go through a kernel and be
closed by a binding. Binding looks for the kernel below the node first, and the search finds
it if it is there.
-/

namespace PixelKernel.Graph

open Relation
open PixelKernel.Language (Argument Value)

namespace Kernel

variable {kernel : Kernel}

/-- A node is bound if it stands in the place of a declared argument. -/
theorem mem_boundSamplers {n : Nat} : n ∈ kernel.boundSamplers ↔
    ∃ i : Nat, (∃ a, (kernel.arguments?.getD [])[i]? = some a) ∧
      kernel.bindings[i]? = some (some (.sampler (some n))) := by
  simp only [boundSamplers, slots, List.mem_filterMap]
  constructor
  · rintro ⟨⟨a, v⟩, there, picked⟩
    split at picked
    · next same =>
      cases same
      cases picked
      obtain ⟨i, at_⟩ := List.mem_iff_getElem?.1 there
      obtain ⟨first, second⟩ := List.getElem?_zip_eq_some.1 at_
      exact ⟨i, ⟨a, first⟩, second⟩
    · cases picked
  · rintro ⟨i, ⟨a, first⟩, second⟩
    exact ⟨(a, some (.sampler (some n))),
      List.mem_of_getElem? (List.getElem?_zip_eq_some.2 ⟨first, second⟩), rfl⟩

/-- An argument that is found is declared under that name. -/
theorem argument_of_index {name : String} {i : Nat} (h : kernel.argumentIndex? name = some i) :
    ∃ a, (kernel.arguments?.getD [])[i]? = some a ∧ a.name = name := by
  obtain ⟨as, compiled, found⟩ := Option.bind_eq_some_iff.1 h
  obtain ⟨inside, named, -⟩ := List.findIdx?_eq_some_iff_getElem.1 found
  exact ⟨as[i], by simp [compiled, inside], by simpa using named⟩

/-- A kernel that was compiled has nothing bound yet. -/
theorem boundSamplers_compile (kernel : Kernel) (source : String) :
    (kernel.compile source).boundSamplers = [] := by
  rw [List.eq_nil_iff_forall_not_mem]
  intro n there
  obtain ⟨i, -, bound⟩ := mem_boundSamplers.1 there
  unfold compile at bound
  split at bound
  · rw [List.getElem?_map, Option.map_eq_some_iff] at bound
    obtain ⟨a, -, none_⟩ := bound
    cases none_
  · cases bound

/-- A binding adds at most the node that is bound. -/
theorem boundSamplers_setBinding {i n : Nat} {v : Option Value}
    (h : n ∈ (kernel.setBinding i v).boundSamplers) :
    n ∈ kernel.boundSamplers ∨ v = some (.sampler (some n)) := by
  obtain ⟨j, declared, bound⟩ := mem_boundSamplers.1 h
  by_cases same : i = j
  · subst same
    simp only [setBinding, List.getElem?_set_self'] at bound
    obtain ⟨_, -, same⟩ := Option.map_eq_some_iff.1 bound
    exact .inr same
  · refine .inl (mem_boundSamplers.2 ⟨j, declared, ?_⟩)
    simpa only [setBinding, List.getElem?_set_ne same] using bound

end Kernel

/-! ## What bindings accept -/

namespace Binding

variable {a : Argument} {v w : Value}

/-- A value that was made to fit is a sampler only if it was one. -/
theorem coerce_sampler {n : Option Nat} (h : coerce a v = .ok (.sampler n)) : v = .sampler n := by
  unfold coerce at h
  split at h
  · cases h
  · cases h
  · split at h <;> cases h
    rfl

theorem coerce_ty (h : coerce a v = .ok w) : w.ty = a.ty.operand := by
  unfold coerce at h
  split at h
  · next float => cases h; rw [float]; rfl
  · next int => cases h; rw [int]; rfl
  · split at h <;> cases h
    assumption

/-- A sampler fits exactly the arguments that are samplers. -/
theorem coerce_of_sampler {n : Option Nat} (h : a.ty = .sampler) :
    coerce a (.sampler n) = .ok (.sampler n) := by
  simp [coerce, h, Value.ty, Language.Ty.operand]

end Binding

namespace Store

variable {κ χ : Type} {s s' : Store κ χ} {k : Nat} {name : String}

/-- The place of a new binding, and the value that is kept there. -/
theorem placement_eq_ok {v w : Option Value} {i : Nat} (h : s.placement k name v = .ok (i, w)) :
    ∃ a, (s.kernel k).argumentIndex? name = some i ∧
      ((s.kernel k).arguments?.getD [])[i]? = some a ∧ a.name = name ∧
      ((v = none ∧ w = none) ∨ ∃ x y, v = some x ∧ Binding.coerce a x = .ok y ∧ w = some y ∧
        ∀ n, y = .sampler (some n) → s.reaches n k = false) := by
  unfold placement at h
  dsimp only at h
  split at h
  · cases h
  next j index =>
    obtain ⟨a, there, named⟩ := Kernel.argument_of_index index
    rw [there] at h
    cases v with
    | none =>
        cases h
        exact ⟨a, index, there, named, .inl ⟨rfl, rfl⟩⟩
    | some x =>
        cases fits : Binding.coerce a x with
        | error => simp only [fits] at h; cases h
        | ok y =>
            simp only [fits] at h
            simp only [Bind.bind, Except.bind] at h
            split at h
            · next n =>
              split at h
              · cases h
              · next free =>
                cases h
                refine ⟨a, index, there, named, .inr ⟨x, _, rfl, fits, rfl, ?_⟩⟩
                rintro m ⟨⟩
                simpa using free
            · next other =>
              cases h
              exact ⟨a, index, there, named,
                .inr ⟨x, y, rfl, fits, rfl, fun n same => absurd same (other n)⟩⟩

/-- A sampler is bound unless the kernel would depend on itself. -/
theorem placement_sampler {a : Argument} {i n : Nat}
    (index : (s.kernel k).argumentIndex? name = some i)
    (there : ((s.kernel k).arguments?.getD [])[i]? = some a) (sampler : a.ty = .sampler) :
    s.placement k name (some (.sampler (some n))) =
      if s.reaches n k then .error (.invalidGraph (.dependsOnItself name))
      else .ok (i, some (.sampler (some n))) := by
  unfold placement
  simp only [index, there, Binding.coerce_of_sampler sampler]
  change (if s.reaches n k = true then _ else _) = _
  cases s.reaches n k <;> rfl

/-! ## The invariant -/

/-- Nodes read older nodes or what is bound to a kernel, and that never leads to the kernel. -/
structure Wired (s : Store κ χ) : Prop where
  older : ∀ {n c}, (s.node n).base? = some c → c < n
  inside : ∀ {k n}, n ∈ (s.kernel k).boundSamplers → n < s.nodes.size
  apart : ∀ {k n}, n ∈ (s.kernel k).boundSamplers → ¬ s.Needs n k

theorem Wired.new : (new : Store κ χ).Wired where
  older h := by cases h
  inside h := by cases h
  apart h := by cases h

theorem child_lt (wired : s.Wired) {n c : Nat} (h : c ∈ s.children n) : c < s.nodes.size := by
  have here := lt_size_of_mem_children h
  rcases mem_children_iff.1 h with base | ⟨k, -, bound⟩
  · exact Nat.lt_trans (wired.older base) here
  · exact wired.inside bound

section

variable {s s' : Store κ χ} {k n : Nat}

/-- In the changed store, the kernel may have one more node bound. -/
structure Adds (s s' : Store κ χ) (k n : Nat) : Prop where
  nodes : s'.nodes = s.nodes
  bound : ∀ {j m}, m ∈ (s'.kernel j).boundSamplers →
    m ∈ (s.kernel j).boundSamplers ∨ (j = k ∧ m = n)

theorem Adds.node (h : Adds s s' k n) (m : Nat) : s'.node m = s.node m := by
  simp only [Store.node, h.nodes]

theorem Adds.isImageOf (h : Adds s s' k n) (j m : Nat) :
    s'.isImageOf j m = s.isImageOf j m := by
  simp only [Store.isImageOf, h.node]

theorem Adds.child (h : Adds s s' k n) {m c : Nat} (edge : c ∈ s'.children m) :
    c ∈ s.children m ∨ (s.isImageOf k m = true ∧ c = n) := by
  rcases mem_children_iff.1 edge with base | ⟨j, image, bound⟩
  · exact .inl (mem_children_iff.2 (.inl (h.node m ▸ base)))
  · rw [h.isImageOf] at image
    rcases h.bound bound with old | ⟨rfl, rfl⟩
    · exact .inl (mem_children_of_isImageOf image old)
    · exact .inr ⟨image, rfl⟩

/-- A way in the changed store is an old one, or an old one leads to the kernel and the rest
    starts at the node that was bound. -/
theorem Adds.leads (h : Adds s s' k n) {m x : Nat} (way : s'.Leads m x) :
    s.Leads m x ∨ (s.Needs m k ∧ s'.Leads n x) := by
  induction way using ReflTransGen.head_induction_on with
  | refl => exact .inl .refl
  | head edge rest ih =>
      rcases h.child edge with old | ⟨image, rfl⟩
      · rcases ih with leads | ⟨needs, leads⟩
        · exact .inl (.head old leads)
        · exact .inr ⟨Leads.needs (.single old) needs, leads⟩
      · exact .inr ⟨⟨_, .refl, image⟩, rest⟩

/-- Binding a node that does not lead to the kernel closes no cycle. -/
theorem Wired.of_adds (wired : s.Wired) (h : Adds s s' k n) (inside : n < s.nodes.size)
    (free : ¬ s.Needs n k) : s'.Wired where
  older {m c} base := wired.older (h.node m ▸ base)
  inside bound := by
    rw [h.nodes]
    rcases h.bound bound with old | ⟨-, rfl⟩
    · exact wired.inside old
    · exact inside
  apart := by
    -- ways from the bound node are old ones, since it does not lead to the kernel
    have old {x} (way : s'.Leads n x) : s.Leads n x :=
      (h.leads way).resolve_right fun closed => free closed.1
    intro j m bound ⟨x, way, image⟩
    rw [h.isImageOf] at image
    rcases h.leads way with leads | ⟨needs, fromBound⟩
    · rcases h.bound bound with before | ⟨rfl, rfl⟩
      · exact wired.apart before ⟨x, leads, image⟩
      · exact free ⟨x, leads, image⟩
    · rcases h.bound bound with before | ⟨rfl, rfl⟩
      · -- the node leads to an image of `j`, from there to `m` and on to the kernel
        have back : s.Leads n m := (old fromBound).tail (mem_children_of_isImageOf image before)
        exact free (back.needs needs)
      · exact free needs

/-- With fewer bindings there are fewer ways. -/
theorem Wired.of_fewer (wired : s.Wired) (nodes : s'.nodes = s.nodes)
    (bound : ∀ {j m}, m ∈ (s'.kernel j).boundSamplers → m ∈ (s.kernel j).boundSamplers) :
    s'.Wired := by
  have node (m : Nat) : s'.node m = s.node m := by simp only [Store.node, nodes]
  have image (j m : Nat) : s'.isImageOf j m = s.isImageOf j m := by simp only [isImageOf, node]
  have leads {m x} (way : s'.Leads m x) : s.Leads m x := by
    refine ReflTransGen.mono ?_ _ _ way
    intro a c edge
    rcases mem_children_iff.1 edge with base | ⟨j, isImage, child⟩
    · exact mem_children_iff.2 (.inl (node a ▸ base))
    · exact mem_children_of_isImageOf (image j a ▸ isImage) (bound child)
  refine ⟨fun {m c} base => wired.older (node m ▸ base), fun b => nodes ▸ wired.inside (bound b), ?_⟩
  rintro j m b ⟨x, way, isImage⟩
  exact wired.apart (bound b) ⟨x, leads way, image j x ▸ isImage⟩

/-- No way leads to a new node but the one that starts there. -/
theorem Wired.addNode (wired : s.Wired) {node : Node κ χ} (older : ∀ c, node.base? = some c →
    c < s.nodes.size) : (s.addNode node).2.Wired := by
  have size : (s.addNode node).2.nodes.size = s.nodes.size + 1 := by simp [Store.addNode]
  have same {m} (old : m < s.nodes.size) : (s.addNode node).2.node m = s.node m := by
    rw [node_addNode, if_neg (Nat.ne_of_lt old)]
  have image {m j} (old : m < s.nodes.size) :
      (s.addNode node).2.isImageOf j m = s.isImageOf j m := by simp only [isImageOf, same old]
  have leads {m x} (old : m < s.nodes.size) (way : (s.addNode node).2.Leads m x) :
      s.Leads m x ∧ x < s.nodes.size := by
    induction way with
    | refl => exact ⟨.refl, old⟩
    | @tail b c _ edge ih =>
        have edge' := edge
        rw [mem_children_iff, same ih.2] at edge'
        have edge : c ∈ s.children b := by
          rcases edge' with base | ⟨j, isImage, bound⟩
          · exact mem_children_iff.2 (.inl base)
          · exact mem_children_iff.2 (.inr ⟨j, image ih.2 ▸ isImage, bound⟩)
        exact ⟨ih.1.tail edge, child_lt wired edge⟩
  refine ⟨fun {m c} base => ?_, fun {j m} bound => ?_, ?_⟩
  · rw [node_addNode] at base
    split at base
    · next new => exact new ▸ older c base
    · exact wired.older base
  · rw [size]
    exact Nat.lt_succ_of_lt (wired.inside (k := j) bound)
  · rintro j m bound ⟨x, way, isImage⟩
    obtain ⟨way, old⟩ := leads (wired.inside (k := j) bound) way
    exact wired.apart (k := j) bound ⟨x, way, image old ▸ isImage⟩

end

theorem kernel_boundSamplers_of_setKernel {j m : Nat} {kernel : Kernel}
    (there : k < s.kernels.size) (h : m ∈ ((s.setKernel k kernel).kernel j).boundSamplers) :
    (j = k ∧ m ∈ kernel.boundSamplers) ∨ m ∈ (s.kernel j).boundSamplers := by
  by_cases same : j = k
  · subst same
    rw [kernel_setKernel_self there] at h
    exact .inl ⟨rfl, h⟩
  · rw [kernel_setKernel_ne same] at h
    exact .inr h

theorem Wired.step (wired : s.Wired) (h : s.Step s') : s'.Wired := by
  cases h with
  | stay => exact wired
  | newKernel => exact wired.of_fewer rfl fun bound => by rwa [kernel_addKernel] at bound
  | newNode refers =>
    refine wired.addNode fun c base => ?_
    rename_i n
    cases n with
    | transform | crop => cases base; exact refers
    | empty | buffer | kernel | canvas => cases base
  | newCanvas | drawn => exact wired.of_fewer rfl id
  | @kernel k kernel there turns count =>
    cases turns with
    | compiled source =>
      refine wired.of_fewer rfl fun {j m} bound => ?_
      rcases kernel_boundSamplers_of_setKernel there bound with ⟨rfl, none_⟩ | old
      · rw [Kernel.boundSamplers_compile] at none_
        cases none_
      · exact old
    | observed observers =>
      refine wired.of_fewer rfl fun {j m} bound => ?_
      rcases kernel_boundSamplers_of_setKernel there bound with ⟨rfl, same⟩ | old
      · exact same
      · exact old
    | @bound name v i w placed offers =>
      have bound {j m} (h : m ∈ (({ s.setKernel k ((s.kernel k).setBinding i w) with
          subscriptions := count } : Store κ χ).kernel j).boundSamplers) :
          m ∈ (s.kernel j).boundSamplers ∨ (j = k ∧ w = some (.sampler (some m))) := by
        rcases kernel_boundSamplers_of_setKernel there h with ⟨rfl, new⟩ | old
        · exact (Kernel.boundSamplers_setBinding new).imp_right fun same => ⟨rfl, same⟩
        · exact .inl old
      obtain ⟨a, -, -, -, ⟨rfl, rfl⟩ | ⟨x, y, rfl, fits, rfl, free⟩⟩ := placement_eq_ok placed
      · exact wired.of_fewer rfl fun h => (bound h).resolve_right fun new => nomatch new.2
      · by_cases sampler : ∃ n, y = .sampler (some n)
        · obtain ⟨n, rfl⟩ := sampler
          obtain rfl := Binding.coerce_sampler fits
          obtain ⟨m, same, inside⟩ := offers _ rfl
          cases same
          refine wired.of_adds (k := k) (n := n) ⟨rfl, fun h => (bound h).imp_right ?_⟩ inside ?_
          · rintro ⟨rfl, ⟨⟩⟩
            exact ⟨rfl, rfl⟩
          · rw [← reaches_iff, free n rfl]
            exact Bool.false_ne_true
        · exact wired.of_fewer rfl fun h => (bound h).resolve_right fun new =>
            sampler ⟨_, Option.some.inj new.2⟩

theorem Wired.of_reached [Scalar κ] [Scalar χ] [Narrow κ χ] {run : Nat → Runner κ χ}
    {ops : List (Operation κ χ)} (h : Reached run ops s) : s.Wired :=
  h.invariant .new fun _ _ => Wired.step

/-! ## Recursion along edges -/

/-- A way goes to older nodes only, or it passes through a kernel. -/
theorem Wired.descends (wired : s.Wired) {n m : Nat} (h : s.Leads n m) : m ≤ n ∨
    ∃ x k c, s.isImageOf k x = true ∧ c ∈ (s.kernel k).boundSamplers ∧ s.Leads n x ∧
      s.Leads c m := by
  induction h using ReflTransGen.head_induction_on with
  | refl => exact .inl (Nat.le_refl m)
  | head edge rest ih =>
      rcases mem_children_iff.1 edge with base | ⟨k, image, bound⟩
      · rcases ih with older | ⟨x, k, c, image, bound, leads, back⟩
        · exact .inl (Nat.le_of_lt (Nat.lt_of_le_of_lt older (wired.older base)))
        · exact .inr ⟨x, k, c, image, bound, .head edge leads, back⟩
      · exact .inr ⟨_, k, _, image, bound, .refl, rest⟩

/-- Nothing that a node reads leads back to it. -/
theorem Wired.acyclic (wired : s.Wired) {n c : Nat} (edge : c ∈ s.children n) :
    ¬ s.Leads c n := by
  intro back
  rcases mem_children_iff.1 edge with base | ⟨k, image, bound⟩
  · rcases wired.descends back with older | ⟨x, k, c', image, bound, leads, rest⟩
    · exact absurd (wired.older base) (Nat.not_lt.2 older)
    · exact wired.apart bound ⟨x, rest.trans (.head edge leads), image⟩
  · exact wired.apart bound ⟨n, back, image⟩

open Classical in
/-- Number of nodes that a node leads to. -/
noncomputable def below (s : Store κ χ) (n : Nat) : Nat :=
  ((Finset.range s.nodes.size).filter (s.Leads n)).card

open Classical in
theorem below_le (n : Nat) : s.below n ≤ s.nodes.size :=
  (Finset.card_filter_le _ _).trans (Finset.card_range _).le

open Classical in
theorem Wired.below_lt (wired : s.Wired) {n c : Nat} (edge : c ∈ s.children n) :
    s.below c < s.below n := by
  apply Finset.card_lt_card
  rw [Finset.ssubset_iff_of_subset]
  · exact ⟨n, by simpa using ⟨lt_size_of_mem_children edge, .refl⟩,
      fun there => wired.acyclic edge (Finset.mem_filter.1 there).2⟩
  · intro x there
    rw [Finset.mem_filter] at there ⊢
    exact ⟨there.1, .head edge there.2⟩

/-- Whatever goes down from node to node comes to an end. -/
theorem Wired.wellFounded (wired : s.Wired) : WellFounded fun c n => c ∈ s.children n :=
  Subrelation.wf wired.below_lt (measure s.below).wf

theorem Wired.path_le (wired : s.Wired) {n l m : Nat} (h : s.Path n l m) :
    l ≤ s.nodes.size := by
  suffices l ≤ s.below n from this.trans (below_le n)
  induction h with
  | here => exact Nat.zero_le _
  | down edge _ ih => exact Nat.lt_of_le_of_lt ih (wired.below_lt edge)

section

variable {α : Type} {at_ : Nat → Nat → α} {step : (Nat → α) → Nat → α}

/-- Beyond the number of nodes below, more levels make no difference. -/
theorem Wired.enough (wired : s.Wired) (succ : ∀ fuel n, at_ (fuel + 1) n = step (at_ fuel) n)
    (congr : ∀ f g n, (∀ c ∈ s.children n, f c = g c) → step f n = step g n) {fuel fuel' n : Nat}
    (h : s.below n < fuel) (h' : s.below n < fuel') : at_ fuel n = at_ fuel' n := by
  induction fuel generalizing fuel' n with
  | zero => exact absurd h (Nat.not_lt_zero _)
  | succ fuel ih =>
      cases fuel' with
      | zero => exact absurd h' (Nat.not_lt_zero _)
      | succ fuel' =>
          rw [succ, succ]
          refine congr _ _ n fun c edge => ih ?_ ?_
          all_goals have := wired.below_lt edge; omega

/-- A recursion that goes down the edges with one more level than there are nodes never runs
    out of levels. -/
theorem Wired.unfold (wired : s.Wired) (succ : ∀ fuel n, at_ (fuel + 1) n = step (at_ fuel) n)
    (congr : ∀ f g n, (∀ c ∈ s.children n, f c = g c) → step f n = step g n) (n : Nat) :
    at_ (s.nodes.size + 1) n = step (at_ (s.nodes.size + 1)) n := by
  rw [succ]
  refine congr _ _ n fun c edge => wired.enough succ congr ?_ ?_
  all_goals have := wired.below_lt edge; have := s.below_le n; omega

end

/-! ## Extents -/

/-- Extent of a node, given the extents of the nodes that it reads. -/
def extentOf [Scalar κ] (s : Store κ χ) (extent : Nat → Rect κ) (n : Nat) : Rect κ :=
  match s.node n with
  | .empty => .plane
  | .buffer b => b.extent
  | .transform child t => t.mapExtent (extent child)
  | .crop child rect => (extent child).intersect rect
  | .canvas c => ((s.canvases[c]?).map (·.extent)).getD .plane
  | .kernel k policy =>
    match policy with
    | .infinite => .plane
    | .fixed rect => rect
    | .asking f => f (s.kernel k) ((s.kernel k).inputExtents extent)
    | .standard (some name) dx dy =>
      let base : Rect κ := match (s.kernel k).argument name with
        | .ok (some (.sampler (some m))) => extent m
        | _ => .plane
      base.inset dx dy
    | .standard none dx dy =>
      let base : Rect κ := match (s.kernel k).boundSamplers.map extent with
        | [] => .plane
        | r :: rest => rest.foldl Rect.union r
      base.inset dx dy

theorem mem_boundSamplers_of_argument {kernel : Kernel} {name : String} {m : Nat}
    (h : kernel.argument name = .ok (some (.sampler (some m)))) : m ∈ kernel.boundSamplers := by
  unfold Kernel.argument at h
  split at h
  · cases h
  next i index =>
    obtain ⟨a, there, -⟩ := Kernel.argument_of_index index
    exact Kernel.mem_boundSamplers.2 ⟨i, ⟨a, there⟩, Option.join_eq_some_iff.1 (Except.ok.inj h)⟩

theorem inputExtents_congr [Scalar κ] {kernel : Kernel} {f g : Nat → Rect κ}
    (same : ∀ c ∈ kernel.boundSamplers, f c = g c) : kernel.inputExtents f = kernel.inputExtents g := by
  funext c
  unfold Kernel.inputExtents
  split
  · next input => exact same c (List.contains_iff_mem.1 input)
  · rfl

theorem extentOf_congr [Scalar κ] (f g : Nat → Rect κ) (n : Nat)
    (same : ∀ c ∈ s.children n, f c = g c) : s.extentOf f n = s.extentOf g n := by
  unfold extentOf
  unfold children at same
  cases node : s.node n with
  | empty | buffer | canvas => rfl
  | transform child t | crop child rect =>
      rw [node] at same
      dsimp only
      rw [same child (List.mem_singleton_self child)]
  | kernel k policy =>
      rw [node] at same
      dsimp only at same ⊢
      cases policy with
      | infinite | fixed => rfl
      | asking ask =>
          exact congrArg (ask (s.kernel k)) (inputExtents_congr same)
      | standard argument dx dy =>
          cases argument with
          | none =>
              dsimp only
              rw [List.map_congr_left same]
          | some name =>
              dsimp only
              split
              · next m bound => rw [same m (mem_boundSamplers_of_argument bound)]
              · rfl

/-- The extent of a node is made of the extents of the nodes that it reads. -/
theorem Wired.extent_eq [Scalar κ] (wired : s.Wired) (n : Nat) :
    s.extent n = s.extentOf s.extent n :=
  Wired.unfold wired (fun fuel n => (rfl : s.extentAt (fuel + 1) n = _)) extentOf_congr n

end Store
end PixelKernel.Graph
