import PixelKernel.Proofs.Graph.Numbering

/-! # The order of a plan

Planning puts a node behind all that it reads and lists it before it goes on along the walk, so no
place is left without a node. The list of planned nodes at the end is a table that gives each node
below the root one place, and each place of the plan one node.
-/

namespace PixelKernel.Graph

open PixelKernel.Language (Argument Program Target Value)

/-- Places of the nodes that the operation reads. -/
def Plan.Op.reads {κ χ : Type} : Plan.Op κ χ → List Nat
  | .empty | .pixels .. => []
  | .kernel _ args => args.filterMap fun
    | .sampler (some i) => some i
    | _ => none
  | .transform child _ | .crop child _ => [child]

/-- Up to a place, every place is listed. -/
def Planner.Full {κ χ : Type} (p : Planner κ χ) (place : Nat) : Prop :=
  ∀ i < place, ∃ n, (n, i) ∈ p.planned

/-- Every node of the plan reads nodes before it, and the root is the last one. -/
structure Plan.Ordered {κ χ : Type} (plan : Plan κ χ) : Prop where
  before : ∀ {i : Nat} {node}, plan.nodes[i]? = some node → ∀ j ∈ node.op.reads, j < i
  last : plan.root + 1 = plan.nodes.size

namespace Store

variable {κ χ : Type} [Scalar κ] {s : Store κ χ} {plan : Plan κ χ} {limits : Limits} {n k : Nat}
  {table : List (Nat × Nat)} {place size : Nat} {nodes : Set Nat}

/-! ## Tables -/

/-- The table has one place below `size` for each of the nodes, and one of the nodes for each such
    place. There the plan has the node, with its map, its extent and the places of what it reads. -/
structure Lays (s : Store κ χ) (nodes : Set Nat) (plan : Plan κ χ) (size : Nat)
    (table : List (Nat × Nat)) : Prop where
  placed : ∀ n ∈ nodes, ∃! i, (n, i) ∈ table
  filled : ∀ i < size, ∃! n, (n, i) ∈ table
  inside : ∀ {n i}, (n, i) ∈ table → n ∈ nodes ∧ i < size
  stands : ∀ {n i}, (n, i) ∈ table → ∃ op,
    plan.nodes[i]? = some ⟨op, s.toWorld n, (s.toWorld n).reciprocalInverse, s.extent n⟩ ∧
      s.Depicts table i (s.node n) op

omit [Scalar κ] in
/-- Planning along a walk leaves no place out. -/
theorem Walked.full {p : Planner κ χ} {walked : List Nat} (h : Walked p walked) :
    p.Full p.nodes.size := by
  intro i inside
  rw [h.size] at inside
  exact ⟨_, h.mem_planned.2 (List.getElem?_eq_getElem inside)⟩

omit [Scalar κ] in
theorem Ahead.full {p : Planner κ χ} {walked : List Nat} {i : Nat} (h : Ahead p walked i) :
    p.Full i := by
  intro j before
  rw [h.last] at before
  refine ⟨walked.eraseDups[j], ?_⟩
  rw [h.planned, List.mem_reverse, List.mk_mem_zipIdx_iff_getElem?]
  exact List.getElem?_eq_getElem before

/-- What is planned and full is a table. -/
theorem Planned.lays {p : Planner κ χ} {nodes : Set Nat} {size : Nat} (planned : s.Planned p)
    (same : plan.nodes = p.nodes) (full : p.Full size)
    (below : ∀ {m i}, (m, i) ∈ p.planned → m ∈ nodes ∧ i < size)
    (closed : ∀ m ∈ nodes, ∃ i, (m, i) ∈ p.planned) : s.Lays nodes plan size p.planned where
  placed m there := by
    obtain ⟨i, found⟩ := closed m there
    exact ⟨i, found, fun j other => planned.once other found⟩
  filled i inside := by
    obtain ⟨m, found⟩ := full i inside
    exact ⟨m, found, fun m' other => planned.apart other found⟩
  inside := below
  stands found := by
    rw [same]
    exact planned.stands found

omit [Scalar κ] in
/-- Samplers that a run is given are bound, and planned before it. -/
theorem passed_sampler {slots : List (Argument × Option Value)} {args : List Value}
    (passed : List.Forall₂ (Passes table place) slots args) {i : Nat}
    (there : .sampler (some i) ∈ args) : i < place ∧ ∃ m, (m, i) ∈ table := by
  induction passed with
  | nil => cases there
  | cons first _ ih =>
      rcases List.mem_cons.1 there with rfl | later
      · cases first with
        | sampler found before fits => exact ⟨before, _, found⟩
        | plain other => exact absurd rfl (other i)
      · exact ih later

omit [Scalar κ] in
theorem mem_reads_kernel {program : Program} {args : List Value} {i : Nat}
    (there : i ∈ (.kernel program args : Plan.Op κ χ).reads) : .sampler (some i) ∈ args := by
  obtain ⟨v, given, picked⟩ := List.mem_filterMap.1 there
  split at picked
  · cases picked
    exact given
  · cases picked

/-- A node reads nodes that were planned before it. -/
theorem Depicts.reads_lt {node : Node κ χ} {op : Plan.Op κ χ}
    (h : s.Depicts table place node op) {i : Nat} (there : i ∈ op.reads) :
    i < place ∧ ∃ m, (m, i) ∈ table := by
  cases h with
  | empty | buffer | noCanvas | canvas => cases there
  | kernel compiled normal passed => exact passed_sampler passed (mem_reads_kernel there)
  | transform below before | crop below before =>
      cases List.mem_singleton.1 there
      exact ⟨before, _, below⟩

theorem Lays.ordered (h : s.Lays nodes plan size table) {i : Nat} {node : Plan.Node κ χ}
    (there : plan.nodes[i]? = some node) (inside : i < size) : ∀ j ∈ node.op.reads, j < i := by
  intro j read
  obtain ⟨m, found, -⟩ := h.filled i inside
  obtain ⟨op, there', depicts⟩ := h.stands found
  rw [there] at there'
  cases there'
  exact (depicts.reads_lt read).1

omit [Scalar κ] in
theorem ends_build {m : Planner.Build κ χ Nat} {good : Nat → Planner κ χ → Prop}
    {bad : Fault → Prop} (h : m.Ends ⟨#[], [], []⟩ good bad) (built : Plan.build m = .ok plan) :
    ∃ p : Planner κ χ, plan.nodes = p.nodes ∧ good plan.root p := by
  simpa only [built] using build_eq h

theorem Wired.forImage_laid (wired : s.Wired) (accepted : Plan.forImage s limits n = .ok plan) :
    plan.Ordered ∧ ∃ table, s.Lays {m | s.Leads n m} plan plan.nodes.size table ∧
      (n, plan.root) ∈ table := by
  have visited : (Planner.visit s limits.depth (limits.depth + 1) n).Ends ⟨#[], [], []⟩ _ _ :=
    wired.visited _ _ n .start fun _ active => absurd active List.not_mem_nil
  have numbers := wired.numbers (s.walks [n]) limits.depth (limits.depth + 1) n _ [] (.start [n])
  obtain ⟨p, same, visited, walked, place⟩ := ends_build (visited.both numbers) accepted
  have laid : s.Lays {m | s.Leads n m} plan plan.nodes.size p.planned := by
    refine visited.planned.lays same (same ▸ walked.full) (fun {m i} there => ⟨?_, ?_⟩) ?_
    · rcases visited.near there with old | ⟨l, -, way⟩
      · cases old
      · exact way.leads
    · rw [same]
      exact (visited.planned.stands there).lt
    · exact fun m leads => visited.planned.closed visited.found leads
  refine ⟨⟨fun {i node} there => ?_, ?_⟩, p.planned, laid, visited.found⟩
  swap
  · rw [place, same, walked.size]
    exact wired.place_self n
  exact laid.ordered there (Array.getElem?_eq_some_iff.1 there).1

/-- The root of a plan for records: the kernel, with what is bound to it. -/
structure Heads (s : Store κ χ) (k : Nat) (plan : Plan κ χ) (table : List (Nat × Nat))
    (program : Program) (args : List Value) : Prop where
  compiled : (s.kernel k).program? = some program
  target : program.target = .reduce
  passed : List.Forall₂ (Passes table plan.root) (s.kernel k).slots args
  root : plan.nodes[plan.root]? =
    some ⟨.kernel program args, .identity, Affine.identity.reciprocalInverse, .plane⟩

theorem Wired.forRecords_laid (wired : s.Wired)
    (accepted : Plan.forRecords s limits k = .ok plan) : plan.Ordered ∧
      ∃ table, s.Lays {m | ∃ c ∈ (s.kernel k).boundSamplers, s.Leads c m} plan plan.root table ∧
        ∃ program args, s.Heads k plan table program args := by
  have prepared : (Planner.kernelNode s (Planner.visit s limits.depth limits.depth) k .reduce
      .plane).Ends ⟨#[], [], []⟩ _ _ :=
    kernelNode_prepared wired (wired.visited limits.depth) .start List.not_mem_nil
      fun _ _ _ active => absurd active List.not_mem_nil
  have numbers : (Planner.kernelNode s (Planner.visit s limits.depth limits.depth) k .reduce
      .plane).Ends ⟨#[], [], []⟩ _ _ :=
    kernelNode_numbers wired (.start _) fun c _ => wired.numbers _ limits.depth limits.depth c
  obtain ⟨p, same, prepared, ahead⟩ := ends_build (prepared.both numbers) accepted
  obtain ⟨program, args, compiled, target, passed, root⟩ := prepared.holds
  have last : plan.root + 1 = p.nodes.size := by rw [ahead.size, ahead.last]
  have laid : s.Lays {m | ∃ c ∈ (s.kernel k).boundSamplers, s.Leads c m} plan plan.root
      p.planned := by
    refine prepared.planned.lays same ahead.full (fun {m i} there => ⟨?_, ?_⟩) ?_
    · rcases prepared.near there with old | ⟨c, bound, l, -, way⟩
      · cases old
      · exact ⟨c, bound, way.leads⟩
    · have := (prepared.planned.stands there).lt
      have : i ≠ plan.root := fun eq => prepared.alone m (eq ▸ there)
      omega
    · rintro m ⟨c, bound, leads⟩
      obtain ⟨a, slot⟩ := among_slots_iff.2 bound
      obtain ⟨v, -, passes⟩ := passes_of_mem passed slot
      cases passes with
      | sampler there before fits => exact prepared.planned.closed there leads
      | plain other => exact absurd rfl (other c)
  refine ⟨⟨fun {i node} there => ?_, same ▸ last⟩, p.planned, laid, program, args, compiled, target,
    passed, same ▸ root⟩
  rcases Nat.lt_or_ge i plan.root with below | top
  · exact laid.ordered there below
  · have inside := (Array.getElem?_eq_some_iff.1 there).1
    obtain rfl : i = plan.root := by
      rw [same] at inside
      omega
    rw [same, root] at there
    cases there
    exact fun j read => (passed_sampler passed (mem_reads_kernel read)).1

end Store
end PixelKernel.Graph
