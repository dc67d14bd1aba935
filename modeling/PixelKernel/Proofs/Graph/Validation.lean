import PixelKernel.Proofs.Graph.Depth

/-! # Which graphs are planned

A graph that is not too deep is planned if nothing is wrong below its root, and otherwise refused
for the first thing that is wrong, going down depth first and through arguments in the order of
their declaration. A node that was planned before is not looked at again, and need not be: nothing
was wrong below it. A node that is sampled has to have a place that fits into 32 bits; which place it
has is settled by the walk from the root.
-/

namespace PixelKernel.Graph

open PixelKernel.Language (Argument Value Target)

namespace Store

variable {κ χ : Type} [Scalar κ] {s : Store κ χ}

/-! ## What is wrong with a graph -/

/-- What is wrong with the binding of an argument, given the places of nodes and what is wrong below
    each of them. -/
def slotFaults (kernel : String) (place : Nat → Nat) (below : Nat → List Fault) :
    Argument × Option Value → List Fault
  | (a, none) => if a.ty = .sampler then [] else [.invalidGraph (.unbound kernel a.name)]
  | (_, some (.sampler (some c))) =>
    below c ++ if place c < 2 ^ 32 then [] else [.invalidGraph .tooLarge]
  | (_, some _) => []

/-- What is wrong with a kernel: its compilation, then its target, then its arguments in the order
    of their declaration. -/
def kernelFaults (s : Store κ χ) (place : Nat → Nat) (below : Nat → List Fault) (k : Nat)
    (target : Target) : List Fault :=
  match (s.kernel k).program? with
  | none => [.invalidGraph .notCompiled]
  | some program =>
    (if program.target = target then []
      else [.invalidGraph (.wrongTarget program.kernelName program.target target)]) ++
    (s.kernel k).slots.flatMap (slotFaults program.kernelName place below)

/-- What is wrong with a node: with what a moved or cropped node reads first, then with the map
    itself. -/
def faultsOf (s : Store κ χ) (place : Nat → Nat) (below : Nat → List Fault) (n : Nat) :
    List Fault :=
  match s.node n with
  | .empty | .buffer _ | .canvas _ => []
  | .kernel k _ => s.kernelFaults place below k .normal
  | .transform child t =>
    below child ++ if t.isSingular then [.singularTransform t.singularText] else []
  | .crop child _ => below child

/-- All that is wrong with a node and below it, with a bound on the depth. -/
def faultsAt (s : Store κ χ) (place : Nat → Nat) : Nat → Nat → List Fault
  | 0, _ => []
  | fuel + 1, n => s.faultsOf place (s.faultsAt place fuel) n

/-- All that is wrong with a node and below it, in the order in which it is met, once for each way
    that leads to it. -/
def faults (s : Store κ χ) (place : Nat → Nat) : Nat → List Fault :=
  s.faultsAt place (s.nodes.size + 1)

variable {place : Nat → Nat}

omit [Scalar κ] in
theorem slotFaults_congr {kernel : Kernel} {name : String} {f g : Nat → List Fault}
    (same : ∀ c ∈ kernel.boundSamplers, f c = g c) {slot : Argument × Option Value}
    (there : slot ∈ kernel.slots) : slotFaults name place f slot = slotFaults name place g slot := by
  unfold slotFaults
  split
  · rfl
  · rw [same _ (among_slots_iff.1 ⟨_, there⟩)]
  · rfl

theorem faultsOf_congr (f g : Nat → List Fault) (n : Nat) (same : ∀ c ∈ s.children n, f c = g c) :
    s.faultsOf place f n = s.faultsOf place g n := by
  unfold faultsOf
  unfold children at same
  cases node : s.node n with
  | empty | buffer | canvas => rfl
  | transform child t | crop child rect =>
      rw [node] at same
      dsimp only at same ⊢
      rw [same child (List.mem_singleton_self child)]
  | kernel k policy =>
      rw [node] at same
      dsimp only at same ⊢
      unfold kernelFaults
      cases (s.kernel k).program? with
      | none => rfl
      | some program =>
          dsimp only
          congr 1
          exact List.flatMap_congr fun slot there => slotFaults_congr same there

/-- What is wrong below a node does not depend on the bound on the depth. -/
theorem Wired.faults_eq (wired : s.Wired) (place : Nat → Nat) (n : Nat) :
    s.faults place n = s.faultsOf place (s.faults place) n :=
  Wired.unfold wired (fun fuel n => (rfl : s.faultsAt place (fuel + 1) n = _)) faultsOf_congr n

/-! ## Graphs without faults -/

/-- All arguments have what they need, and nothing is wrong below. -/
theorem slotFaults_eq_nil_iff {kernel : String} {below : Nat → List Fault}
    {slots : List (Argument × Option Value)} :
    slots.flatMap (slotFaults kernel place below) = [] ↔
      (∀ a, (a, none) ∈ slots → a.ty = .sampler) ∧
        ∀ c, Among slots c → below c = [] ∧ place c < 2 ^ 32 := by
  rw [List.flatMap_eq_nil_iff]
  constructor
  · intro none
    refine ⟨fun a there => ?_, fun c ⟨a, there⟩ => ?_⟩
    · have nothing := none _ there
      by_contra needed
      simp [slotFaults, needed] at nothing
    · simpa [slotFaults] using none _ there
  · intro ⟨given, below⟩ slot there
    unfold slotFaults
    split
    next a => simp [given a there]
    next a c =>
      obtain ⟨clean, fits⟩ := below c ⟨a, there⟩
      rw [clean, if_pos fits]
      rfl
    next => rfl

omit [Scalar κ] in
/-- The kernel is compiled for the target and has all it needs, with nothing wrong below. -/
theorem kernelFaults_eq_nil_iff {below : Nat → List Fault} {k : Nat} {target : Target} :
    s.kernelFaults place below k target = [] ↔
      (∃ program, (s.kernel k).program? = some program ∧ program.target = target) ∧
      (∀ a, (a, none) ∈ (s.kernel k).slots → a.ty = .sampler) ∧
      ∀ c ∈ (s.kernel k).boundSamplers, below c = [] ∧ place c < 2 ^ 32 := by
  unfold kernelFaults
  cases (s.kernel k).program? with
  | none => simp
  | some program =>
      simp only [List.append_eq_nil_iff, slotFaults_eq_nil_iff, among_slots_iff, Option.some.injEq,
        exists_eq_left']
      simp

theorem isSome_inverse?_iff {t : Affine κ} : t.inverse?.isSome ↔ t.isSingular = false := by
  unfold Affine.inverse?
  cases t.isSingular <;> simp

theorem Valid.child {n c : Nat} (valid : s.Valid n) (edge : c ∈ s.children n) : s.Valid c where
  compiled k needs := valid.compiled k (Leads.needs (.single edge) needs)
  bound k needs := valid.bound k (Leads.needs (.single edge) needs)
  invertible m child t leads := valid.invertible m child t (.head edge leads)

/-- Nothing is wrong just if nothing is wrong with the node alone and below its children. -/
theorem faultsOf_eq_nil_iff {below : Nat → List Fault} {n : Nat} :
    s.faultsOf place below n = [] ↔
      (∀ k, s.isImageOf k n = true →
        (∃ program, (s.kernel k).program? = some program ∧ program.target = .normal) ∧
        (∀ a, (a, none) ∈ (s.kernel k).slots → a.ty = .sampler) ∧
        ∀ c ∈ (s.kernel k).boundSamplers, place c < 2 ^ 32) ∧
      (∀ child t, s.node n = .transform child t → t.inverse?.isSome) ∧
      ∀ c ∈ s.children n, below c = [] := by
  unfold faultsOf children isImageOf
  cases s.node n with
  | empty | buffer | canvas | crop => simp
  | transform child t =>
      have moved : (∀ child' t', (Node.transform child t : Node κ χ) = .transform child' t' →
          t'.inverse?.isSome) ↔ t.isSingular = false := by
        rw [← isSome_inverse?_iff]
        exact ⟨fun all => all _ _ rfl, fun one _ _ same => by cases same; exact one⟩
      rw [moved]
      cases singular : t.isSingular <;> simp [singular]
  | kernel k policy =>
      dsimp only
      rw [kernelFaults_eq_nil_iff]
      constructor
      · rintro ⟨compiled, given, below⟩
        refine ⟨fun j same => ?_, nofun, fun c bound => (below c bound).1⟩
        obtain rfl := beq_iff_eq.1 same
        exact ⟨compiled, given, fun c bound => (below c bound).2⟩
      · rintro ⟨own, -, below⟩
        obtain ⟨compiled, given, fits⟩ := own k (beq_self_eq_true k)
        exact ⟨compiled, given, fun c bound => ⟨below c bound, fits c bound⟩⟩

/-- Nothing is wrong below a node that is valid and whose samplers have places that fit. -/
theorem Wired.faults_eq_nil_iff (wired : s.Wired) {n : Nat} : s.faults place n = [] ↔
    s.Valid n ∧ ∀ k, s.Needs n k → ∀ c ∈ (s.kernel k).boundSamplers, place c < 2 ^ 32 := by
  constructor
  · intro clean
    have all {m} (leads : s.Leads n m) : s.faults place m = [] := by
      induction leads with
      | refl => exact clean
      | tail _ edge ih =>
          rw [wired.faults_eq, faultsOf_eq_nil_iff] at ih
          exact ih.2.2 _ edge
    have own {m} (leads : s.Leads n m) := by
      have none_ := all leads
      rw [wired.faults_eq, faultsOf_eq_nil_iff] at none_
      exact none_
    refine ⟨?_, fun k ⟨m, leads, image⟩ => ((own leads).1 k image).2.2⟩
    exact {
      compiled := fun k ⟨m, leads, image⟩ => ((own leads).1 k image).1
      bound := fun k ⟨m, leads, image⟩ => ((own leads).1 k image).2.1
      invertible := fun m child t leads => (own leads).2.1 child t }
  · rintro ⟨valid, fits⟩
    induction n using wired.wellFounded.induction with
    | _ n ih =>
      rw [wired.faults_eq, faultsOf_eq_nil_iff]
      refine ⟨fun k image => ?_, fun child t => valid.invertible n child t .refl, fun c edge => ?_⟩
      · have needs : s.Needs n k := ⟨n, .refl, image⟩
        exact ⟨valid.compiled k needs, valid.bound k needs, fits k needs⟩
      · exact ih c edge (valid.child edge) fun k needs => fits k (Leads.needs (.single edge) needs)

theorem Wired.plannable_iff (wired : s.Wired) {n : Nat} :
    s.Plannable n ↔ s.faults (s.place [n]) n = [] := by
  rw [wired.faults_eq_nil_iff]
  exact ⟨fun h => ⟨h.toValid, h.numbered⟩, fun ⟨valid, numbered⟩ => ⟨valid, numbered⟩⟩

/-! ## What planning reports -/

variable {α β : Type}

/-- Nothing is wrong at the nodes planned so far. -/
def Clean (s : Store κ χ) (place : Nat → Nat) (p : Planner κ χ) : Prop :=
  ∀ n i, (n, i) ∈ p.planned → s.faults place n = []

/-- The construction succeeds if there are no faults, and otherwise fails with the first. -/
def Checks (s : Store κ χ) (place : Nat → Nat) (faults : List Fault) (m : Planner.Build κ χ α)
    (p : Planner κ χ) : Prop :=
  m.Ends p (fun _ p' => faults = [] ∧ s.Clean place p' ∧ p'.active = p.active)
    fun fault => faults.head? = some fault

/-- Planning a node on the walk from the roots checks all below it, unless the node needs an active
    kernel. -/
def Surveys (s : Store κ χ) (roots : List Nat) (visit : Nat → Planner.Build κ χ Nat) (n : Nat) :
    Prop :=
  ∀ p walked, s.Stage (s.walks roots) p walked [n] → s.Clean (s.place roots) p →
    (∀ k ∈ p.active, ¬ s.Needs n k) →
    s.Checks (s.place roots) (s.faults (s.place roots) n) (visit n) p

namespace Checks

variable {m : Planner.Build κ χ α} {f : α → Planner.Build κ χ β} {p : Planner κ χ}
  {faults faults' : List Fault}

theorem pure {a : α} (clean : s.Clean place p) :
    s.Checks place [] (Pure.pure a : Planner.Build κ χ α) p := ⟨rfl, clean, rfl⟩

theorem fail {fault : Fault} :
    s.Checks place (fault :: faults) (throw fault : Planner.Build κ χ α) p :=
  Planner.Build.Ends.fail rfl

theorem add {op : Plan.Op κ χ} {toWorld : Affine κ} {extent : Rect κ} (clean : s.Clean place p) :
    s.Checks place [] (Planner.add op toWorld extent) p := ⟨rfl, clean, rfl⟩

/-- First the one, which leaves something that is good for the other. -/
theorem andThenWith {good : α → Planner κ χ → Prop} (first : m.Ends p
      (fun a p' => (faults = [] ∧ s.Clean place p' ∧ p'.active = p.active) ∧ good a p')
      fun fault => faults.head? = some fault)
    (rest : ∀ a p', good a p' → s.Clean place p' → p'.active = p.active →
      s.Checks place faults' (f a) p') : s.Checks place (faults ++ faults') (m >>= f) p := by
  refine .bind (first.mono (fun a p' ⟨⟨none_, clean, active⟩, good⟩ => ?_) fun fault head => ?_)
  · subst none_
    exact (rest a p' good clean active).mono
      (fun _ _ ⟨none_, clean, active'⟩ => ⟨none_, clean, active'.trans active⟩) fun _ => id
  · simp [List.head?_append, head]

/-- First the one, then the other. -/
theorem andThen (first : s.Checks place faults m p)
    (rest : ∀ a p', s.Clean place p' → p'.active = p.active → s.Checks place faults' (f a) p') :
    s.Checks place (faults ++ faults') (m >>= f) p :=
  have checked : m.Ends p
      (fun _ p' => (faults = [] ∧ s.Clean place p' ∧ p'.active = p.active) ∧ True)
      fun fault => faults.head? = some fault :=
    first.mono (fun _ _ kept => ⟨kept, trivial⟩) fun _ => id
  andThenWith checked fun a p' _ => rest a p'

theorem andPure (first : s.Checks place faults m p) {g : α → β} :
    s.Checks place faults (m >>= fun a => Pure.pure (g a)) p := by
  have both := first.andThen (f := fun a => Pure.pure (g a)) fun _ _ clean _ => .pure clean
  rwa [List.append_nil] at both

theorem placed {i : Nat} {f : Plan.Node κ χ → Planner.Build κ χ α}
    (rest : ∀ node, s.Checks place faults (f node) p) :
    s.Checks place faults (Planner.placed i >>= f) p :=
  Planner.Build.Ends.bind (.read (.pure (rest _)))

end Checks

variable {roots walked : List Nat} {visit : Nat → Planner.Build κ χ Nat} {p : Planner κ χ}
  {kernel : String}

/-- An argument to which no node is bound leaves things as they are. -/
theorem plain_checks {slot : Argument × Option Value} {below : Nat → List Fault}
    (plain : sampler? slot = none) (clean : s.Clean place p) :
    (Planner.argument visit kernel slot).Ends p
      (fun _ p' => (slotFaults kernel place below slot = [] ∧ s.Clean place p' ∧
        p'.active = p.active) ∧ p' = p)
      fun fault => (slotFaults kernel place below slot).head? = some fault := by
  unfold slotFaults
  split
  next a =>
    unfold Planner.argument
    dsimp only
    split
    · exact .pure ⟨⟨rfl, clean, rfl⟩, rfl⟩
    · exact .fail rfl
  next => cases plain
  next a v other =>
    unfold Planner.argument
    split
    next same => cases same
    next same => cases same; exact absurd rfl (other _)
    next => exact .pure ⟨⟨rfl, clean, rfl⟩, rfl⟩

/-- A node that is bound is planned, and then its place is looked at. -/
theorem sampler_checks {slot : Argument × Option Value} {c : Nat} (bound : sampler? slot = some c)
    (stage : s.Stage (s.walks roots) p walked [c]) (clean : s.Clean (s.place roots) p)
    (numbers : s.Numbers (s.walks roots) visit c) (surveys : s.Surveys roots visit c)
    (apart : ∀ k ∈ p.active, ¬ s.Needs c k) :
    (Planner.argument visit kernel slot).Ends p
      (fun _ p' => (slotFaults kernel (s.place roots) (s.faults (s.place roots)) slot = [] ∧
        s.Clean (s.place roots) p' ∧ p'.active = p.active) ∧ Walked p' (walked ++ s.walk c))
      fun fault =>
        (slotFaults kernel (s.place roots) (s.faults (s.place roots)) slot).head? = some fault := by
  have faults : slotFaults kernel (s.place roots) (s.faults (s.place roots)) slot =
      s.faults (s.place roots) c ++
        if s.place roots c < 2 ^ 32 then [] else [.invalidGraph .tooLarge] := by
    unfold sampler? at bound
    split at bound
    · cases bound
      rfl
    · cases bound
  rw [argument_of_sampler bound, faults]
  refine .boundSampler (((surveys p walked stage clean apart).both (numbers p walked stage)).mono
    ?_ ?_)
  · rintro i p' ⟨⟨none_, clean', active⟩, planned, rfl⟩
    rw [none_]
    refine ⟨fun fits => ⟨⟨if_pos fits, clean', active⟩, planned⟩, fun beyond => ?_⟩
    exact congrArg List.head? (if_neg (Nat.not_lt.2 beyond))
  · rintro fault ⟨head, -⟩
    simp [List.head?_append, head]

theorem arguments_checks (wired : s.Wired) (kernel : String)
    (slots : List (Argument × Option Value)) : ∀ {p walked},
    s.Stage (s.walks roots) p walked (slots.filterMap sampler?) → s.Clean (s.place roots) p →
    (∀ c ∈ slots.filterMap sampler?, s.Numbers (s.walks roots) visit c ∧ s.Surveys roots visit c) →
    (∀ c ∈ slots.filterMap sampler?, ∀ k ∈ p.active, ¬ s.Needs c k) →
    s.Checks (s.place roots)
      (slots.flatMap (slotFaults kernel (s.place roots) (s.faults (s.place roots))))
      (Planner.arguments visit kernel slots) p := by
  induction slots with
  | nil => exact fun {p walked} _ clean _ _ => .pure clean
  | cons slot rest ih =>
      intro p walked stage clean visits apart
      rw [Planner.arguments_cons, List.flatMap_cons]
      cases bound : sampler? slot with
      | none =>
          rw [List.filterMap_cons_none bound] at stage visits apart
          refine .andThenWith (plain_checks bound clean) ?_
          rintro v _ rfl clean active
          exact (ih stage clean visits apart).andPure
      | some c =>
          rw [List.filterMap_cons_some bound] at stage visits apart
          obtain ⟨numbers, surveys⟩ := visits c (.head _)
          refine .andThenWith (sampler_checks bound stage.first clean numbers surveys
            (apart c (.head _))) fun v p' planned clean' active => ?_
          refine (ih (stage.next wired planned) clean' (fun c' there => visits c' (.tail _ there))
            fun c' there k held => ?_).andPure
          exact apart c' (.tail _ there) k (active ▸ held)

theorem kernelNode_checks (wired : s.Wired) {k : Nat} (target : Target) (extent : Rect κ)
    (stage : s.Stage (s.walks roots) p walked (s.kernel k).boundSamplers)
    (clean : s.Clean (s.place roots) p) (idle : k ∉ p.active)
    (visits : ∀ c ∈ (s.kernel k).boundSamplers,
      s.Numbers (s.walks roots) visit c ∧ s.Surveys roots visit c)
    (apart : ∀ c ∈ (s.kernel k).boundSamplers, ∀ j ∈ p.active, ¬ s.Needs c j) :
    s.Checks (s.place roots) (s.kernelFaults (s.place roots) (s.faults (s.place roots)) k target)
      (Planner.kernelNode s visit k target extent) p := by
  unfold Planner.kernelNode kernelFaults
  refine .read (.check (fun active => absurd (by simpa using active) idle) fun _ => ?_)
  cases (s.kernel k).program? with
  | none => exact Checks.fail
  | some program =>
    refine .check (fun other => by simp [other]) fun normal => .change ?_
    dsimp only
    rw [if_pos (not_not.1 normal), List.nil_append]
    have arguments := arguments_checks wired program.kernelName (s.kernel k).slots
      (p := { p with active := k :: p.active })
      ⟨⟨stage.planned.planned, stage.planned.size⟩, stage.ended, stage.within⟩ clean visits
      fun c bound j active => by
        rcases List.mem_cons.1 active with rfl | active
        · exact wired.apart bound
        · exact apart c bound j active
    refine .andThen arguments fun args p' ⟨none_, clean', active⟩ => .change (.add ?_)
    exact ⟨none_, clean', by rw [active, List.tail_cons]⟩

theorem fresh_checks (wired : s.Wired) {n : Nat} (stage : s.Stage (s.walks roots) p walked [n])
    (clean : s.Clean (s.place roots) p)
    (visits : ∀ c ∈ s.children n, s.Numbers (s.walks roots) visit c ∧ s.Surveys roots visit c)
    (apart : ∀ k ∈ p.active, ¬ s.Needs n k) :
    s.Checks (s.place roots) (s.faults (s.place roots) n) (Planner.fresh s visit n) p := by
  have ahead := stage.below wired
  have below {c} (edge : c ∈ s.children n) : ∀ k ∈ p.active, ¬ s.Needs c k :=
    fun k active needs => apart k active (Leads.needs (.single edge) needs)
  have child {c} (only : s.children n = [c]) := (visits c (by simp [only])).2 p walked
    (only ▸ ahead) clean (below (by simp [only]))
  rw [wired.faults_eq]
  unfold Planner.fresh faultsOf
  cases node : s.node n with
  | empty | buffer => exact .add clean
  | canvas c =>
      dsimp only
      split
      all_goals exact .add clean
  | transform c t =>
      have only : s.children n = [c] := by simp [children, node]
      refine (child only).andThen fun i p' clean' _ => ?_
      unfold Affine.inverse?
      cases t.isSingular with
      | false => exact .placed fun _ => .add clean'
      | true => exact .fail
  | crop c rect =>
      have only : s.children n = [c] := by simp [children, node]
      dsimp only
      rw [← (s.faults (s.place roots) c).append_nil]
      exact (child only).andThen fun i p' clean' _ => .placed fun _ => .add clean'
  | kernel k policy =>
      have same : s.children n = (s.kernel k).boundSamplers := by simp [children, node]
      have needs : s.Needs n k := ⟨n, .refl, isImageOf_iff.2 ⟨policy, node⟩⟩
      rw [same] at ahead visits
      exact kernelNode_checks wired .normal _ ahead clean (fun active => apart k active needs) visits
        fun c bound => below (same ▸ bound)

/-- A node whose ways all have room is planned with all below it checked. -/
theorem Wired.surveys (wired : s.Wired) (roots : List Nat) (limit room : Nat) : ∀ n,
    (∀ l m, s.Path n l m → l < room) → s.Surveys roots (Planner.visit s limit room) n := by
  induction room with
  | zero => exact fun n within => absurd (within 0 n (.here n)) (Nat.lt_irrefl 0)
  | succ room ih =>
      intro n within p walked stage clean apart
      unfold Planner.visit
      refine .read ?_
      cases listed : p.planned.lookup n with
      | some i =>
          -- nothing was wrong below the node when it was planned
          have there : (n, i) ∈ p.planned := by
            obtain ⟨before, after, same, -⟩ := List.lookup_eq_some_iff.1 listed
            simp [same]
          rw [clean n i there]
          exact Checks.pure clean
      | none =>
          have checks := fresh_checks wired stage clean (fun c edge =>
            ⟨wired.numbers _ limit room c, ih c fun l m way =>
              Nat.lt_of_succ_lt_succ (within _ _ (.down edge way))⟩) apart
          refine .andThen checks fun i p' kept => ?_
          obtain ⟨none_, clean', active⟩ := kept
          refine .change (.pure ⟨none_, ?_, active⟩)
          rintro m j (_ | ⟨_, old⟩)
          · exact none_
          · exact clean' m j old

/-! ## Exactly the valid graphs -/

theorem build_eq_ok_or {m : Planner.Build κ χ Nat} {faults : List Fault}
    (h : s.Checks place faults m ⟨#[], [], []⟩) :
    ((∃ plan, Plan.build m = .ok plan) ↔ faults = []) ∧
      ∀ fault, Plan.build m = .error fault ↔ faults.head? = some fault := by
  have ended := build_eq h
  cases built : Plan.build m with
  | ok plan =>
      rw [built] at ended
      obtain ⟨-, -, rfl, -⟩ := ended
      simp
  | error fault =>
      rw [built] at ended
      have some_ : faults ≠ [] := fun none_ => by simp [none_] at ended
      simp [ended, some_]

/-- The kernel emits records, and nothing is wrong with it or below it. -/
structure Emittable (s : Store κ χ) (k : Nat) : Prop where
  compiled : ∃ program, (s.kernel k).program? = some program ∧ program.target = .reduce
  bound : ∀ a, (a, none) ∈ (s.kernel k).slots → a.ty = .sampler
  below : ∀ c ∈ (s.kernel k).boundSamplers, s.Valid c
  /-- What is bound has a place that fits, and so has all that is sampled below it. -/
  numbered : ∀ c ∈ (s.kernel k).boundSamplers,
    s.place (s.kernel k).boundSamplers c < 2 ^ 32 ∧ s.Numbered (s.kernel k).boundSamplers c

/-- What is wrong with a kernel that is to emit records, and below it. -/
def emitterFaults (s : Store κ χ) (k : Nat) : List Fault :=
  s.kernelFaults (s.place (s.kernel k).boundSamplers)
    (s.faults (s.place (s.kernel k).boundSamplers)) k .reduce

theorem Wired.emittable_iff (wired : s.Wired) {k : Nat} :
    s.Emittable k ↔ s.emitterFaults k = [] := by
  simp only [emitterFaults, kernelFaults_eq_nil_iff, wired.faults_eq_nil_iff]
  constructor
  · intro h
    exact ⟨h.compiled, h.bound, fun c bound =>
      ⟨⟨h.below c bound, (h.numbered c bound).2⟩, (h.numbered c bound).1⟩⟩
  · rintro ⟨compiled, bound, below⟩
    exact ⟨compiled, bound, fun c there => (below c there).1.1,
      fun c there => ⟨(below c there).2, (below c there).1.2⟩⟩

/-- What planning accepts, and what it reports of the rest, where the limit on the depth allows
    all ways down. -/
structure PlansExactly (s : Store κ χ) [Scalar χ] : Prop where
  /-- What is wrong below a node goes on with what is wrong below those it reads. -/
  faults : ∀ place n, s.faults place n = s.faultsOf place (s.faults place) n
  /-- An image is planned if it is valid throughout and the places of what is sampled fit, -/
  images : ∀ limits n, (∀ l m, s.Path n l m → l ≤ limits.depth) →
    ((∃ plan, Plan.forImage s limits n = .ok plan) ↔ s.Plannable n)
  /-- or else refused for the first thing that is wrong. -/
  refused : ∀ limits n, (∀ l m, s.Path n l m → l ≤ limits.depth) → ∀ fault,
    Plan.forImage s limits n = .error fault ↔
      (s.faults (s.place [n]) n).head? = some fault
  /-- So is a kernel that emits records, which stands above the images that it samples. -/
  emitters : ∀ limits k,
    (∀ c ∈ (s.kernel k).boundSamplers, ∀ l m, s.Path c l m → l + 1 ≤ limits.depth) →
    ((∃ plan, Plan.forRecords s limits k = .ok plan) ↔ s.Emittable k)
  unemitted : ∀ limits k,
    (∀ c ∈ (s.kernel k).boundSamplers, ∀ l m, s.Path c l m → l + 1 ≤ limits.depth) → ∀ fault,
    Plan.forRecords s limits k = .error fault ↔ (s.emitterFaults k).head? = some fault
  /-- Places fit wherever there are no more nodes than numbers for them. -/
  places : s.nodes.size ≤ 2 ^ 32 → (∀ n, s.Numbered [n] n) ∧
    ∀ k, ∀ c ∈ (s.kernel k).boundSamplers,
      s.place (s.kernel k).boundSamplers c < 2 ^ 32 ∧ s.Numbered (s.kernel k).boundSamplers c

omit [Scalar κ] in
theorem Wired.places_fit (wired : s.Wired) (few : s.nodes.size ≤ 2 ^ 32) :
    (∀ n, s.Numbered [n] n) ∧ ∀ k, ∀ c ∈ (s.kernel k).boundSamplers,
      s.place (s.kernel k).boundSamplers c < 2 ^ 32 ∧
        s.Numbered (s.kernel k).boundSamplers c := by
  constructor
  · intro n
    rcases Nat.lt_or_ge n s.nodes.size with there | outside
    · exact wired.numbered few (List.forall_mem_singleton.2 there)
        (s.walks_singleton n ▸ wired.self_mem_walk n)
    · rintro k ⟨m, leads, image⟩
      rcases Relation.ReflTransGen.cases_head leads with rfl | ⟨c, edge, -⟩
      · simp [isImageOf, Store.node, Array.getD, Nat.not_lt.2 outside] at image
      · rw [children_of_size_le outside] at edge
        cases edge
  · intro k c bound
    have inside : ∀ r ∈ (s.kernel k).boundSamplers, r < s.nodes.size := fun r there =>
      wired.inside there
    have met : c ∈ s.walks (s.kernel k).boundSamplers :=
      List.mem_flatMap.2 ⟨c, bound, wired.self_mem_walk c⟩
    exact ⟨Nat.lt_of_lt_of_le (wired.place_lt inside met) few, wired.numbered few inside met⟩

theorem Wired.plansExactly [Scalar χ] (wired : s.Wired) : s.PlansExactly := by
  have image {limits : Limits} {n : Nat} (within : ∀ l m, s.Path n l m → l ≤ limits.depth) :=
    build_eq_ok_or (wired.surveys [n] limits.depth (limits.depth + 1) n
      (fun l m way => Nat.lt_succ_of_le (within l m way)) ⟨#[], [], []⟩ [] (.start [n])
      (fun _ _ there => absurd there List.not_mem_nil) fun _ active => absurd active List.not_mem_nil)
  have emitter {limits : Limits} {k : Nat} (within : ∀ c ∈ (s.kernel k).boundSamplers, ∀ l m,
      s.Path c l m → l + 1 ≤ limits.depth) :=
    build_eq_ok_or (kernelNode_checks wired .reduce .plane (.start (s.kernel k).boundSamplers)
      (fun _ _ there => absurd there List.not_mem_nil) List.not_mem_nil
      (fun c bound => ⟨wired.numbers _ limits.depth limits.depth c,
        wired.surveys _ limits.depth limits.depth c (within c bound)⟩)
      fun _ _ _ active => absurd active List.not_mem_nil)
  exact {
    faults := wired.faults_eq
    images := fun limits n within => (image within).1.trans wired.plannable_iff.symm
    refused := fun limits n within => (image within).2
    emitters := fun limits k within => (emitter within).1.trans wired.emittable_iff.symm
    unemitted := fun limits k within => (emitter within).2
    places := wired.places_fit }

end Store

end PixelKernel.Graph
