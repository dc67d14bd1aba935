import PixelKernel.Proofs.Graph.Reading

/-! # What planning does

Planning a node either puts it into the plan, after all that it reads, or it is refused for
something that is wrong at a node that it leads to. What a plan says of a node is what the
graph says of it, with the places of the nodes that it reads in place of their numbers.
-/

namespace PixelKernel.Graph

open PixelKernel.Language (Program Argument Value Target)

theorem isOk_iff {ε α : Type} {e : Except ε α} : e.isOk ↔ ∃ a, e = .ok a := by
  cases e <;> simp [Except.isOk, Except.toBool]

namespace Planner

variable {κ χ α β : Type}

/-! ## Outcomes of a construction -/

/-- The construction leads from `p` to a result and a state that are `good`, or it fails with
    a fault that is `bad`. -/
def Build.Ends (m : Build κ χ α) (p : Planner κ χ) (good : α → Planner κ χ → Prop)
    (bad : Fault → Prop) : Prop :=
  match m p with
  | .ok (a, p') => good a p'
  | .error fault => bad fault

namespace Build.Ends

variable {m : Build κ χ α} {f : α → Build κ χ β} {p : Planner κ χ} {bad bad' : Fault → Prop}
  {good good' : α → Planner κ χ → Prop} {goal : β → Planner κ χ → Prop}

theorem pure {a : α} (h : good a p) : Ends (Pure.pure a) p good bad := h

theorem fail {fault : Fault} (h : bad fault) : Ends (throw fault : Build κ χ α) p good bad := h

theorem mono (h : Ends m p good bad) (better : ∀ a p', good a p' → good' a p')
    (worse : ∀ fault, bad fault → bad' fault) : Ends m p good' bad' := by
  unfold Ends at h ⊢
  split at h
  · exact better _ _ h
  · exact worse _ h

theorem bind (first : Ends m p (fun a p' => Ends (f a) p' goal bad) bad) :
    Ends (m >>= f) p goal bad := by
  unfold Ends at first
  change (match Except.bind (m p) fun (a, p') => f a p' with
    | .ok (a, p') => goal a p'
    | .error fault => bad fault)
  cases ran : m p with
  | error => rw [ran] at first; exact first
  | ok r => rw [ran] at first; exact first

/-- What is known of an outcome in two ways. -/
theorem both (h : Ends m p good bad) (h' : Ends m p good' bad') :
    Ends m p (fun a p' => good a p' ∧ good' a p') fun fault => bad fault ∧ bad' fault := by
  unfold Ends at h h' ⊢
  split <;> simp_all

/-- First the one, then the other. -/
theorem andThen (first : Ends m p good bad) (rest : ∀ a p', good a p' → Ends (f a) p' goal bad) :
    Ends (m >>= f) p goal bad :=
  bind (first.mono rest fun _ => id)

theorem read {f : Planner κ χ → Build κ χ β} (rest : Ends (f p) p goal bad) :
    Ends (get >>= f) p goal bad := rest

theorem change {c : Planner κ χ → Planner κ χ} {f : PUnit → Build κ χ β}
    (rest : Ends (f ⟨⟩) (c p) goal bad) : Ends (modify c >>= f) p goal bad := rest

theorem add [Scalar κ] {op : Plan.Op κ χ} {toWorld : Affine κ} {extent : Rect κ}
    {good : Nat → Planner κ χ → Prop}
    (h : good p.nodes.size
      { p with nodes := p.nodes.push ⟨op, toWorld, toWorld.reciprocalInverse, extent⟩ }) :
    Ends (Planner.add op toWorld extent) p good bad := h

/-- A check that ends the construction if it goes wrong. -/
theorem check {c : Prop} [Decidable c] {fault : Fault} {m : Build κ χ α}
    (wrong : c → bad fault) (right : ¬ c → Ends m p good bad) :
    Ends (if c then (throw fault : Build κ χ PUnit) >>= fun _ => m else m) p good bad := by
  by_cases h : c
  · rw [if_pos h]
    exact wrong h
  · rw [if_neg h]
    exact right h

/-- A bound sampler is given if its place fits. -/
theorem boundSampler {visit : Nat → Build κ χ Nat} {n : Nat} {good : Value → Planner κ χ → Prop}
    (visited : (visit n).Ends p (fun i p' => (i < 2 ^ 32 → good (.sampler (some i)) p') ∧
      (2 ^ 32 ≤ i → bad (.invalidGraph .tooLarge))) bad) :
    (Planner.boundSampler visit n).Ends p good bad := by
  refine .andThen visited fun i p' ⟨fits, beyond⟩ => ?_
  split
  · next small => exact fits small
  · next large => exact beyond (Nat.not_lt.1 large)

end Build.Ends

/-! ## One argument after the other -/

/-- What a run in the plan is given for one argument. -/
def argument (visit : Nat → Build κ χ Nat) (kernel : String) :
    Argument × Option Value → Build κ χ Value
  | (a, none) =>
    if a.ty = .sampler then pure (.sampler none)
    else throw (.invalidGraph (.unbound kernel a.name))
  | (_, some (.sampler (some n))) => boundSampler visit n
  | (_, some v) => pure v

theorem arguments_cons (visit : Nat → Build κ χ Nat) (kernel : String)
    (slot : Argument × Option Value) (rest : List (Argument × Option Value)) :
    arguments visit kernel (slot :: rest) = (do
      let v ← argument visit kernel slot
      return v :: (← arguments visit kernel rest)) := by
  obtain ⟨a, v⟩ := slot
  conv => lhs; unfold arguments
  unfold argument
  dsimp only
  split
  · dsimp only
    split <;> rfl
  · rfl
  · next v other =>
    split
    · next same => cases same
    · next same => cases same; exact absurd rfl (other _)
    · next same => cases same; rfl

end Planner

namespace Store

variable {κ χ : Type} [Scalar κ] {s : Store κ χ} {limit : Nat}

/-! ## What a plan says of a node -/

/-- The binding of an argument, and what a run in the plan is given for it. -/
inductive Passes (planned : List (Nat × Nat)) (place : Nat) : Argument × Option Value → Value → Prop
  where
  | unbound {a : Argument} (sampler : a.ty = .sampler) : Passes planned place (a, none) (.sampler none)
  | sampler {a n i} (there : (n, i) ∈ planned) (before : i < place) (fits : i < 2 ^ 32) :
      Passes planned place (a, some (.sampler (some n))) (.sampler (some i))
  | plain {a v} (other : ∀ n, v ≠ .sampler (some n)) : Passes planned place (a, some v) v

/-- The node of the graph, and the operation of the plan that does the same. -/
inductive Depicts (s : Store κ χ) (planned : List (Nat × Nat)) (place : Nat) :
    Node κ χ → Plan.Op κ χ → Prop where
  | empty : s.Depicts planned place .empty .empty
  | buffer (b : Buffer κ χ) : s.Depicts planned place (.buffer b)
      (.pixels b.grid ⟨Scalar.zero, Scalar.zero⟩ b.interpolate)
  | noCanvas {c} (none_ : s.canvases[c]? = none) : s.Depicts planned place (.canvas c) .empty
  | canvas {c canvas} (there : s.canvases[c]? = some canvas) :
      s.Depicts planned place (.canvas c)
        (.pixels canvas.grid ⟨canvas.extent.x0, canvas.extent.y0⟩ false)
  | kernel {k policy program args} (compiled : (s.kernel k).program? = some program)
      (normal : program.target = .normal)
      (passed : List.Forall₂ (Passes planned place) (s.kernel k).slots args) :
      s.Depicts planned place (.kernel k policy) (.kernel program args)
  | transform {child t i inverse} (below : (child, i) ∈ planned) (before : i < place)
      (invertible : t.inverse? = some inverse) :
      s.Depicts planned place (.transform child t) (.transform i inverse)
  | crop {child rect i} (below : (child, i) ∈ planned) (before : i < place) :
      s.Depicts planned place (.crop child rect) (.crop i rect)

/-- The place in the plan holds the node, with its map and its extent. -/
def Stands (s : Store κ χ) (p : Planner κ χ) (n i : Nat) : Prop :=
  ∃ op, p.nodes[i]? = some ⟨op, s.toWorld n, (s.toWorld n).reciprocalInverse, s.extent n⟩ ∧
    s.Depicts p.planned i (s.node n) op

/-- Every planned node stands at its place, and at no other. -/
structure Planned (s : Store κ χ) (p : Planner κ χ) : Prop where
  stands : ∀ {n i}, (n, i) ∈ p.planned → s.Stands p n i
  once : ∀ {n i j}, (n, i) ∈ p.planned → (n, j) ∈ p.planned → i = j
  apart : ∀ {n m i}, (n, i) ∈ p.planned → (m, i) ∈ p.planned → n = m

/-- Planning only adds. -/
structure Grown (p p' : Planner κ χ) : Prop where
  nodes : ∀ {i : Nat} {node}, p.nodes[i]? = some node → p'.nodes[i]? = some node
  planned : p.planned ⊆ p'.planned
  active : p'.active = p.active

/-- Why an image is not planned: something is wrong at a node that it leads to, or there is no
    room for a way to one, or no number for a node that some kernel samples. -/
inductive Refused (s : Store κ χ) (limit room n : Nat) : Fault → Prop where
  | tooDeep {m} (way : s.Path n room m) : s.Refused limit room n (.invalidGraph (.tooDeep limit))
  | tooLarge {k} (needs : s.Needs n k) : s.Refused limit room n (.invalidGraph .tooLarge)
  | notCompiled {k} (needs : s.Needs n k) (not : (s.kernel k).program? = none) :
      s.Refused limit room n (.invalidGraph .notCompiled)
  | wrongTarget {k program} (needs : s.Needs n k)
      (compiled : (s.kernel k).program? = some program) (other : program.target ≠ .normal) :
      s.Refused limit room n
        (.invalidGraph (.wrongTarget program.kernelName program.target .normal))
  | unbound {k program a} (needs : s.Needs n k) (compiled : (s.kernel k).program? = some program)
      (missing : (a, none) ∈ (s.kernel k).slots) (needed : a.ty ≠ .sampler) :
      s.Refused limit room n (.invalidGraph (.unbound program.kernelName a.name))
  | singular {m child t} (leads : s.Leads n m) (moved : s.node m = .transform child t)
      (singular : t.inverse? = none) : s.Refused limit room n (.singularTransform t.singularText)

/-- What planning a node leaves: whatever was planned lies on ways that have room. -/
structure Visited (s : Store κ χ) (room n : Nat) (p : Planner κ χ) (i : Nat) (p' : Planner κ χ) :
    Prop where
  grown : Grown p p'
  planned : s.Planned p'
  found : (n, i) ∈ p'.planned
  near : ∀ {m j}, (m, j) ∈ p'.planned → (m, j) ∈ p.planned ∨ ∃ l < room, s.Path n l m

/-! ## Growing -/

section

omit [Scalar κ]

theorem Grown.refl (p : Planner κ χ) : Grown p p := ⟨id, fun _ => id, rfl⟩

theorem Grown.trans {a b c : Planner κ χ} (h : Grown a b) (h' : Grown b c) : Grown a c :=
  ⟨fun there => h'.nodes (h.nodes there), fun _ there => h'.planned (h.planned there),
    h'.active.trans h.active⟩

theorem Grown.size_le {p p' : Planner κ χ} (h : Grown p p') : p.nodes.size ≤ p'.nodes.size := by
  by_contra less
  have last : p'.nodes.size < p.nodes.size := Nat.not_le.1 less
  have there := h.nodes (Array.getElem?_eq_getElem last)
  simp at there

theorem Grown.push (p : Planner κ χ) (node : Plan.Node κ χ) :
    Grown p { p with nodes := p.nodes.push node } := by
  refine ⟨fun {i _} there => ?_, fun _ => id, rfl⟩
  have inside := (Array.getElem?_eq_some_iff.1 there).1
  rwa [Array.getElem?_push_lt inside, ← Array.getElem?_eq_getElem inside]

theorem Passes.grown {planned planned' : List (Nat × Nat)} {place place' : Nat} {slot v}
    (h : Passes planned place slot v) (more : planned ⊆ planned') (after : place ≤ place') :
    Passes planned' place' slot v := by
  cases h with
  | unbound sampler => exact .unbound sampler
  | sampler there before fits =>
      exact .sampler (more there) (Nat.lt_of_lt_of_le before after) fits
  | plain other => exact .plain other

end

theorem Depicts.grown {planned planned' : List (Nat × Nat)} {place : Nat} {node op}
    (h : s.Depicts planned place node op) (more : planned ⊆ planned') :
    s.Depicts planned' place node op := by
  cases h with
  | empty => exact .empty
  | buffer b => exact .buffer b
  | noCanvas none_ => exact .noCanvas none_
  | canvas there => exact .canvas there
  | kernel compiled normal passed =>
      exact .kernel compiled normal (passed.imp fun _ _ h => h.grown more (Nat.le_refl _))
  | transform below before invertible => exact .transform (more below) before invertible
  | crop below before => exact .crop (more below) before

theorem Stands.grown {p p' : Planner κ χ} {n i : Nat} (h : s.Stands p n i) (more : Grown p p') :
    s.Stands p' n i := by
  obtain ⟨op, at_, depicts⟩ := h
  exact ⟨op, more.nodes at_, depicts.grown more.planned⟩

theorem Stands.lt {p : Planner κ χ} {n i : Nat} (h : s.Stands p n i) : i < p.nodes.size := by
  obtain ⟨op, at_, -⟩ := h
  exact (Array.getElem?_eq_some_iff.1 at_).1

/-- A node that is not listed yet does not disturb those that are. -/
theorem Planned.push {p : Planner κ χ} (h : s.Planned p) (node : Plan.Node κ χ) :
    s.Planned { p with nodes := p.nodes.push node } :=
  ⟨fun there => (h.stands there).grown (.push p node), h.once, h.apart⟩

theorem Planned.not_mem {p : Planner κ χ} (h : s.Planned p) (m : Nat) :
    (m, p.nodes.size) ∉ p.planned :=
  fun there => absurd (h.stands there).lt (Nat.lt_irrefl _)

/-- What is wrong below a node is wrong for the node, and there is one more edge to it. -/
theorem Refused.up {n c room : Nat} {fault : Fault} (edge : c ∈ s.children n)
    (h : s.Refused limit room c fault) : s.Refused limit (room + 1) n fault := by
  have up {k} (needs : s.Needs c k) : s.Needs n k := Leads.needs (.single edge) needs
  cases h with
  | tooDeep way => exact .tooDeep (.down edge way)
  | tooLarge needs => exact .tooLarge (up needs)
  | notCompiled needs not => exact .notCompiled (up needs) not
  | wrongTarget needs compiled other => exact .wrongTarget (up needs) compiled other
  | unbound needs compiled missing needed => exact .unbound (up needs) compiled missing needed
  | singular leads moved singular => exact .singular (.head edge leads) moved singular

/-! ## Arguments -/

/-- The node is bound at one of the slots. -/
def Among (slots : List (Argument × Option Value)) (c : Nat) : Prop :=
  ∃ a, (a, some (.sampler (some c))) ∈ slots

/-- How the nodes that a node reads are planned: those that need no active kernel are. -/
def Plans (s : Store κ χ) (limit room : Nat) (visit : Nat → Planner.Build κ χ Nat) : Prop :=
  ∀ p c, s.Planned p → (∀ k ∈ p.active, ¬ s.Needs c k) →
    (visit c).Ends p (s.Visited room c p) (s.Refused limit room c)

/-- What planning the arguments leaves; `made` is what it gives, standing before `place`. -/
structure Arranged (s : Store κ χ) (room : Nat) (slots : List (Argument × Option Value))
    (p p' : Planner κ χ) (made : List (Nat × Nat) → Nat → Prop) : Prop where
  grown : Grown p p'
  planned : s.Planned p'
  made : made p'.planned p'.nodes.size
  near : ∀ {m j}, (m, j) ∈ p'.planned →
    (m, j) ∈ p.planned ∨ ∃ c, Among slots c ∧ ∃ l < room, s.Path c l m

/-- Why arguments are refused. -/
inductive Unarranged (s : Store κ χ) (limit room : Nat) (kernel : String)
    (slots : List (Argument × Option Value)) : Fault → Prop where
  | unbound {a} (missing : (a, none) ∈ slots) (needed : a.ty ≠ .sampler) :
      s.Unarranged limit room kernel slots (.invalidGraph (.unbound kernel a.name))
  | tooLarge : s.Unarranged limit room kernel slots (.invalidGraph .tooLarge)
  | below {c fault} (bound : Among slots c) (refused : s.Refused limit room c fault) :
      s.Unarranged limit room kernel slots fault

section

variable {room : Nat} {visit : Nat → Planner.Build κ χ Nat} {kernel : String} {p : Planner κ χ}

theorem argument_arranged (plans : s.Plans limit room visit) {slot : Argument × Option Value}
    (planned : s.Planned p) (apart : ∀ c, Among [slot] c → ∀ k ∈ p.active, ¬ s.Needs c k) :
    (Planner.argument visit kernel slot).Ends p
      (fun v p' => s.Arranged room [slot] p p' fun planned place => Passes planned place slot v)
      (s.Unarranged limit room kernel [slot]) := by
  unfold Planner.argument
  split
  next a =>
    split
    next sampler => exact .pure ⟨.refl p, planned, .unbound sampler, .inl⟩
    next needed => exact .fail (.unbound (.head _) needed)
  next a c =>
    have among : Among [(a, some (.sampler (some c)))] c := ⟨a, .head _⟩
    refine .boundSampler ((plans p c planned (apart c among)).mono (fun i p' visited =>
      ⟨fun fits => ?_, fun _ => .tooLarge⟩) fun _ refused => .below among refused)
    exact ⟨visited.grown, visited.planned,
      .sampler visited.found (visited.planned.stands visited.found).lt fits,
      fun there => (visited.near there).imp_right fun way => ⟨c, among, way⟩⟩
  next other =>
    exact .pure ⟨.refl p, planned, .plain fun n same => other n (same ▸ rfl), .inl⟩

theorem arguments_arranged (plans : s.Plans limit room visit)
    (slots : List (Argument × Option Value)) : ∀ {p : Planner κ χ}, s.Planned p →
    (∀ c, Among slots c → ∀ k ∈ p.active, ¬ s.Needs c k) →
    (Planner.arguments visit kernel slots).Ends p
      (fun vs p' => s.Arranged room slots p p' fun planned place =>
        List.Forall₂ (Passes planned place) slots vs)
      (s.Unarranged limit room kernel slots) := by
  induction slots with
  | nil => exact fun {p} planned _ => .pure ⟨.refl p, planned, .nil, .inl⟩
  | cons slot rest ih =>
      intro p planned apart
      have first {c} : Among [slot] c → Among (slot :: rest) c := by
        rintro ⟨a, there⟩
        exact ⟨a, List.mem_singleton.1 there ▸ .head _⟩
      have later {c} : Among rest c → Among (slot :: rest) c :=
        fun ⟨a, there⟩ => ⟨a, .tail _ there⟩
      rw [Planner.arguments_cons]
      refine .andThen ((argument_arranged plans planned fun c among =>
        apart c (first among)).mono (fun _ _ => id) ?_) fun v p₁ one => ?_
      · rintro fault (⟨missing, needed⟩ | _ | ⟨bound, refused⟩)
        · exact .unbound (List.mem_singleton.1 missing ▸ .head _) needed
        · exact .tooLarge
        · exact .below (first bound) refused
      refine .andThen ((ih one.planned fun c among k active =>
        apart c (later among) k (one.grown.active ▸ active)).mono (fun _ _ => id) ?_)
        fun vs p₂ others => .pure ?_
      · rintro fault (⟨missing, needed⟩ | _ | ⟨bound, refused⟩)
        · exact .unbound (.tail _ missing) needed
        · exact .tooLarge
        · exact .below (later bound) refused
      refine ⟨one.grown.trans others.grown, others.planned, .cons ?_ others.made, fun there => ?_⟩
      · exact one.made.grown others.grown.planned (others.grown.size_le)
      · rcases others.near there with there | ⟨c, among, way⟩
        · exact (one.near there).imp_right fun ⟨c, among, way⟩ => ⟨c, first among, way⟩
        · exact .inr ⟨c, later among, way⟩

/-! ## Kernels -/

/-- The kernel is planned at the place, though not as a node yet. -/
structure Prepared (s : Store κ χ) (room k : Nat) (target : Target) (extent : Rect κ)
    (p : Planner κ χ) (i : Nat) (p' : Planner κ χ) : Prop where
  grown : Grown p p'
  planned : s.Planned p'
  holds : ∃ program args, (s.kernel k).program? = some program ∧ program.target = target ∧
    List.Forall₂ (Passes p'.planned i) (s.kernel k).slots args ∧
    p'.nodes[i]? = some ⟨.kernel program args, .identity, Affine.identity.reciprocalInverse, extent⟩
  alone : ∀ m, (m, i) ∉ p'.planned
  near : ∀ {m j}, (m, j) ∈ p'.planned →
    (m, j) ∈ p.planned ∨ ∃ c ∈ (s.kernel k).boundSamplers, ∃ l < room, s.Path c l m

/-- Why a kernel is not planned. -/
inductive Unprepared (s : Store κ χ) (limit room k : Nat) (target : Target) : Fault → Prop where
  | notCompiled (not : (s.kernel k).program? = none) :
      s.Unprepared limit room k target (.invalidGraph .notCompiled)
  | wrongTarget {program} (compiled : (s.kernel k).program? = some program)
      (other : program.target ≠ target) : s.Unprepared limit room k target
        (.invalidGraph (.wrongTarget program.kernelName program.target target))
  | unbound {program a} (compiled : (s.kernel k).program? = some program)
      (missing : (a, none) ∈ (s.kernel k).slots) (needed : a.ty ≠ .sampler) :
      s.Unprepared limit room k target (.invalidGraph (.unbound program.kernelName a.name))
  | tooLarge : s.Unprepared limit room k target (.invalidGraph .tooLarge)
  | below {c fault} (bound : c ∈ (s.kernel k).boundSamplers)
      (refused : s.Refused limit room c fault) : s.Unprepared limit room k target fault

theorem among_slots_iff {kernel : Kernel} {c : Nat} :
    Among kernel.slots c ↔ c ∈ kernel.boundSamplers := by
  simp only [Among, Kernel.boundSamplers, List.mem_filterMap]
  constructor
  · rintro ⟨a, there⟩
    exact ⟨_, there, rfl⟩
  · rintro ⟨⟨a, v⟩, there, picked⟩
    split at picked
    · next same => cases same; cases picked; exact ⟨a, there⟩
    · cases picked

theorem kernelNode_prepared (wired : s.Wired) (plans : s.Plans limit room visit) {k : Nat}
    {target : Target} {extent : Rect κ} (planned : s.Planned p) (idle : k ∉ p.active)
    (apart : ∀ c ∈ (s.kernel k).boundSamplers, ∀ j ∈ p.active, ¬ s.Needs c j) :
    (Planner.kernelNode s visit k target extent).Ends p (s.Prepared room k target extent p)
      (s.Unprepared limit room k target) := by
  unfold Planner.kernelNode
  refine .read (.check (fun active => absurd (by simpa using active) idle) fun _ => ?_)
  split
  · next not => exact .fail (.notCompiled not)
  next program compiled =>
    refine .check (fun other => .wrongTarget compiled other) fun normal => .change ?_
    refine .andThen ((arguments_arranged plans _ (p := { p with active := k :: p.active })
      ⟨planned.stands, planned.once, planned.apart⟩ ?_).mono (fun _ _ => id) ?_)
      fun args p₁ arranged => .change ?_
    · intro c among j active
      have bound := among_slots_iff.1 among
      rcases List.mem_cons.1 active with rfl | active
      · exact wired.apart bound
      · exact apart c bound j active
    · rintro fault (⟨missing, needed⟩ | _ | ⟨among, refused⟩)
      · exact .unbound compiled missing needed
      · exact .tooLarge
      · exact .below (among_slots_iff.1 among) refused
    refine .add ⟨?_, ?_, ⟨program, args, compiled, not_not.1 normal, arranged.made, ?_⟩, ?_, ?_⟩
    · have active : p₁.active.tail = p.active := by rw [arranged.grown.active, List.tail_cons]
      exact ⟨fun there => (Grown.push p₁ _).nodes (arranged.grown.nodes there),
        arranged.grown.planned, active⟩
    · exact ⟨(arranged.planned.push _).stands, arranged.planned.once, arranged.planned.apart⟩
    · simp
    · exact arranged.planned.not_mem
    · intro m j there
      exact (arranged.near there).imp_right fun ⟨c, among, way⟩ =>
        ⟨c, among_slots_iff.1 among, way⟩

/-! ## Nodes -/

/-- The node is planned at the place, but not listed yet. -/
structure Placed (s : Store κ χ) (room n : Nat) (p : Planner κ χ) (i : Nat) (p' : Planner κ χ) :
    Prop where
  grown : Grown p p'
  planned : s.Planned p'
  stands : s.Stands p' n i
  alone : ∀ m, (m, i) ∉ p'.planned
  near : ∀ {m j}, (m, j) ∈ p'.planned →
    (m, j) ∈ p.planned ∨ ∃ c ∈ s.children n, ∃ l < room, s.Path c l m

/-- Puts a node that is depicted at the end of the plan. -/
theorem add_placed {p₁ : Planner κ χ} {n : Nat} {op : Plan.Op κ χ} {toWorld : Affine κ}
    {extent : Rect κ} {bad : Fault → Prop} (grown : Grown p p₁) (planned : s.Planned p₁)
    (near : ∀ {m j}, (m, j) ∈ p₁.planned →
      (m, j) ∈ p.planned ∨ ∃ c ∈ s.children n, ∃ l < room, s.Path c l m)
    (depicts : s.Depicts p₁.planned p₁.nodes.size (s.node n) op)
    (map : toWorld = s.toWorld n) (seen : extent = s.extent n) :
    (Planner.add op toWorld extent).Ends p₁ (s.Placed room n p) bad := by
  subst map seen
  exact .add ⟨grown.trans (.push p₁ _), planned.push _, ⟨op, by simp, depicts⟩,
    planned.not_mem, near⟩

theorem placed_ends {i : Nat} {node : Plan.Node κ χ} {α : Type}
    {f : Plan.Node κ χ → Planner.Build κ χ α} {good : α → Planner κ χ → Prop} {bad : Fault → Prop}
    (there : p.nodes[i]? = some node) (rest : (f node).Ends p good bad) :
    (Planner.placed i >>= f).Ends p good bad := by
  refine .bind (.read (.pure ?_))
  rw [there]
  exact rest

theorem fresh_placed (wired : s.Wired) (plans : s.Plans limit room visit) {n : Nat}
    (planned : s.Planned p) (apart : ∀ k ∈ p.active, ¬ s.Needs n k) :
    (Planner.fresh s visit n).Ends p (s.Placed room n p) (s.Refused limit (room + 1) n) := by
  have map := wired.toWorld_eq n
  have seen := wired.extent_eq n
  have below {c} (edge : c ∈ s.children n) := (plans p c planned fun k active needs =>
    apart k active (Leads.needs (.single edge) needs)).mono (fun _ _ => id)
    fun _ refused => refused.up edge
  unfold Planner.fresh
  unfold toWorldOf at map
  unfold extentOf at seen
  cases node : s.node n with
  | empty =>
      simp only [node] at map seen
      exact add_placed (.refl p) planned .inl (node ▸ .empty) map.symm seen.symm
  | buffer b =>
      simp only [node] at map seen
      exact add_placed (.refl p) planned .inl (node ▸ .buffer b) map.symm seen.symm
  | canvas c =>
      simp only [node] at map seen
      cases there : s.canvases[c]? with
      | none =>
          rw [there] at seen
          simp only [there]
          refine add_placed (.refl p) planned .inl ?_ map.symm seen.symm
          exact node ▸ .noCanvas there
      | some canvas =>
          rw [there] at seen
          simp only [there]
          refine add_placed (.refl p) planned .inl ?_ map.symm seen.symm
          exact node ▸ .canvas there
  | transform child t =>
      simp only [node] at map seen
      have edge : child ∈ s.children n := mem_children_iff.2 (.inl (by rw [node]; rfl))
      refine .andThen (below edge) fun i p₁ visited => ?_
      obtain ⟨op, there, -⟩ := visited.planned.stands visited.found
      split
      next singular => exact .fail (.singular .refl node singular)
      next inverse invertible =>
        refine placed_ends there (add_placed visited.grown visited.planned ?_ ?_ map.symm seen.symm)
        · exact fun there => (visited.near there).imp_right fun way => ⟨child, edge, way⟩
        · rw [node]
          exact .transform visited.found (visited.planned.stands visited.found).lt invertible
  | crop child rect =>
      simp only [node] at map seen
      have edge : child ∈ s.children n := mem_children_iff.2 (.inl (by rw [node]; rfl))
      refine .andThen (below edge) fun i p₁ visited => ?_
      obtain ⟨op, there, -⟩ := visited.planned.stands visited.found
      refine placed_ends there (add_placed visited.grown visited.planned ?_ ?_ map.symm seen.symm)
      · exact fun there => (visited.near there).imp_right fun way => ⟨child, edge, way⟩
      · rw [node]
        exact .crop visited.found (visited.planned.stands visited.found).lt
  | kernel k policy =>
      simp only [node] at map
      have image : s.isImageOf k n = true := isImageOf_iff.2 ⟨policy, node⟩
      have edge {c} (bound : c ∈ (s.kernel k).boundSamplers) : c ∈ s.children n :=
        mem_children_of_isImageOf image bound
      have needs : s.Needs n k := ⟨n, .refl, image⟩
      refine (kernelNode_prepared wired plans planned (fun active => apart k active needs)
        fun c bound j active needs => apart j active (Leads.needs (.single (edge bound)) needs)).mono
        ?_ ?_
      · intro i p' prepared
        obtain ⟨program, args, compiled, normal, passed, there⟩ := prepared.holds
        refine ⟨prepared.grown, prepared.planned, ⟨_, map ▸ there, ?_⟩, prepared.alone, ?_⟩
        · rw [node]
          exact .kernel compiled normal passed
        · exact fun there => (prepared.near there).imp_right fun ⟨c, bound, way⟩ =>
            ⟨c, edge bound, way⟩
      · rintro fault (not | ⟨compiled, other⟩ | ⟨compiled, missing, needed⟩ | _ | ⟨bound, refused⟩)
        · exact .notCompiled needs not
        · exact .wrongTarget needs compiled other
        · exact .unbound needs compiled missing needed
        · exact .tooLarge needs
        · exact refused.up (edge bound)

end

/-- Planning a node that needs no kernel which is being planned. -/
theorem Wired.visited (wired : s.Wired) (room : Nat) :
    s.Plans limit room (Planner.visit s limit room) := by
  induction room with
  | zero => exact fun p n _ _ => .fail (.tooDeep (.here n))
  | succ room ih =>
      intro p n planned apart
      unfold Planner.visit
      refine .read ?_
      cases listed : p.planned.lookup n with
      | some i =>
          have there : (n, i) ∈ p.planned := by
            obtain ⟨before, after, same, -⟩ := List.lookup_eq_some_iff.1 listed
            simp [same]
          exact .pure ⟨.refl p, planned, there, .inl⟩
      | none =>
          have new : ∀ i, (n, i) ∉ p.planned := fun i there => by
            simpa using List.lookup_eq_none_iff.1 listed (n, i) there
          refine .andThen (fresh_placed wired ih planned apart) fun i p' placed => .change (.pure ?_)
          -- nothing that the node reads has put the node itself into the list
          have alone : ∀ j, (n, j) ∉ p'.planned := by
            intro j there
            rcases placed.near there with old | ⟨c, edge, l, -, way⟩
            · exact new j old
            · exact wired.acyclic edge way.leads
          refine ⟨⟨placed.grown.nodes, fun _ old => .tail _ (placed.grown.planned old),
            placed.grown.active⟩, ⟨?_, ?_, ?_⟩, .head _, ?_⟩
          · have listed : Grown p' { p' with planned := (n, i) :: p'.planned } :=
              ⟨id, fun _ => .tail _, rfl⟩
            rintro m j (_ | ⟨_, old⟩)
            · exact placed.stands.grown listed
            · exact (placed.planned.stands old).grown listed
          · rintro m j j' (_ | ⟨_, old⟩) (_ | ⟨_, old'⟩)
            · rfl
            · exact absurd old' (alone j')
            · exact absurd old (alone j)
            · exact placed.planned.once old old'
          · rintro m m' j (_ | ⟨_, old⟩) (_ | ⟨_, old'⟩)
            · rfl
            · exact absurd old' (placed.alone m')
            · exact absurd old (placed.alone m)
            · exact placed.planned.apart old old'
          · rintro m j (_ | ⟨_, there⟩)
            · exact .inr ⟨0, Nat.succ_pos room, .here n⟩
            · exact (placed.near there).imp_right fun ⟨c, edge, l, room_, way⟩ =>
                ⟨l + 1, Nat.succ_lt_succ room_, .down edge way⟩

/-! ## Finished plans -/

/-- The planner that starts with nothing. -/
theorem Planned.start : s.Planned (⟨#[], [], []⟩ : Planner κ χ) where
  stands there := absurd there List.not_mem_nil
  once there := absurd there List.not_mem_nil
  apart there := absurd there List.not_mem_nil

omit [Scalar κ] in
theorem build_eq {m : Planner.Build κ χ Nat} {good : Nat → Planner κ χ → Prop}
    {bad : Fault → Prop} (h : m.Ends ⟨#[], [], []⟩ good bad) :
    match Plan.build m with
    | .ok plan => ∃ p : Planner κ χ, plan.nodes = p.nodes ∧ good plan.root p
    | .error fault => bad fault := by
  unfold Planner.Build.Ends at h
  unfold Plan.build StateT.run
  cases ran : m ⟨#[], [], []⟩ with
  | error => rw [ran] at h; exact h
  | ok r => rw [ran] at h; exact ⟨r.2, rfl, h⟩

section

variable {limits : Limits} {n : Nat}

/-- Either the image is planned, all of it on ways that the limit allows, or it is refused. -/
theorem Wired.forImage_cases (wired : s.Wired) (limits : Limits) (n : Nat) :
    match Plan.forImage s limits n with
    | .ok plan => ∃ p : Planner κ χ, plan.nodes = p.nodes ∧
        s.Visited (limits.depth + 1) n ⟨#[], [], []⟩ plan.root p
    | .error fault => s.Refused limits.depth (limits.depth + 1) n fault :=
  build_eq (wired.visited (limits.depth + 1) _ n .start fun _ active => absurd active List.not_mem_nil)

theorem Wired.forImage_ok (wired : s.Wired) {plan : Plan κ χ}
    (h : Plan.forImage s limits n = .ok plan) : ∃ p : Planner κ χ, plan.nodes = p.nodes ∧
      s.Visited (limits.depth + 1) n ⟨#[], [], []⟩ plan.root p := by
  simpa only [h] using wired.forImage_cases limits n

theorem Wired.forImage_error (wired : s.Wired) {fault : Fault}
    (h : Plan.forImage s limits n = .error fault) :
    s.Refused limits.depth (limits.depth + 1) n fault := by
  simpa only [h] using wired.forImage_cases limits n

/-- Either a kernel that emits is planned, or it is refused. -/
theorem Wired.forRecords_cases (wired : s.Wired) (limits : Limits) (k : Nat) :
    match Plan.forRecords s limits k with
    | .ok plan => ∃ p : Planner κ χ, plan.nodes = p.nodes ∧
        s.Prepared limits.depth k .reduce .plane ⟨#[], [], []⟩ plan.root p
    | .error fault => s.Unprepared limits.depth limits.depth k .reduce fault :=
  build_eq (kernelNode_prepared wired (wired.visited limits.depth) .start List.not_mem_nil
    fun _ _ _ active => absurd active List.not_mem_nil)

end

omit [Scalar κ] in
theorem passes_of_mem {planned : List (Nat × Nat)} {place : Nat}
    {slots : List (Argument × Option Value)} {args : List Value}
    (passed : List.Forall₂ (Passes planned place) slots args) {slot} (there : slot ∈ slots) :
    ∃ v ∈ args, Passes planned place slot v := by
  induction passed with
  | nil => cases there
  | cons first _ ih =>
      rcases List.mem_cons.1 there with rfl | later
      · exact ⟨_, .head _, first⟩
      · obtain ⟨v, given, passes⟩ := ih later
        exact ⟨v, .tail _ given, passes⟩

/-- What a planned node reads is planned. -/
theorem Planned.child {p : Planner κ χ} (planned : s.Planned p) {n i c : Nat}
    (there : (n, i) ∈ p.planned) (edge : c ∈ s.children n) : ∃ j < i, (c, j) ∈ p.planned := by
  obtain ⟨op, -, depicts⟩ := planned.stands there
  unfold children at edge
  cases node : s.node n with
  | empty | buffer | canvas => simp only [node] at edge; cases edge
  | transform child t =>
      simp only [node, List.mem_singleton] at edge depicts
      subst edge
      cases depicts with
      | transform below before => exact ⟨_, before, below⟩
  | crop child rect =>
      simp only [node, List.mem_singleton] at edge depicts
      subst edge
      cases depicts with
      | crop below before => exact ⟨_, before, below⟩
  | kernel k policy =>
      simp only [node] at edge depicts
      obtain ⟨a, slot⟩ := among_slots_iff.2 edge
      cases depicts with
      | kernel compiled normal passed =>
          obtain ⟨v, -, passes⟩ := passes_of_mem passed slot
          cases passes with
          | sampler there before fits => exact ⟨_, before, there⟩
          | plain other => exact absurd rfl (other c)

/-- All that a planned node leads to is planned. -/
theorem Planned.closed {p : Planner κ χ} (planned : s.Planned p) {n i m : Nat}
    (there : (n, i) ∈ p.planned) (leads : s.Leads n m) : ∃ j, (m, j) ∈ p.planned := by
  induction leads with
  | refl => exact ⟨i, there⟩
  | tail _ edge ih =>
      obtain ⟨j, there⟩ := ih
      obtain ⟨j', -, child⟩ := planned.child there edge
      exact ⟨j', child⟩

/-- A planned picture shows its texels, if nothing changes where zero is taken away. -/
theorem Depicts.colour_buffer [Scalar χ] [Narrow κ χ] {table : List (Nat × Nat)} {place : Nat}
    {b : Buffer κ χ} {op : Plan.Op κ χ} {toWorld fromWorld : Affine κ} {extent : Rect κ}
    {plan : Plan κ χ} (h : s.Depicts table place (.buffer b) op)
    (found : plan.nodes[place]? = some ⟨op, toWorld, fromWorld, extent⟩)
    (same : ∀ v : κ, v - Scalar.zero = v) (run : Runner κ χ) (point : Point κ) :
    plan.colour run place point = .ok (b.grid.sample b.interpolate point) := by
  cases h with
  | buffer b =>
      rw [Plan.colour, found]
      simp only [same]

end Store
end PixelKernel.Graph
