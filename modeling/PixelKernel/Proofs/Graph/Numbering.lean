import PixelKernel.Proofs.Graph.Planning

/-! # The numbers of planned nodes

Planning walks down from its roots and ends a node after all that it reads. The first time that the
walk ends a node, the node gets the next place of the plan; after that it is passed over. So places
can be told without planning: they are the places of nodes in the walk, repetitions left out.
-/

namespace PixelKernel.Graph

open PixelKernel.Language (Argument Program Target Value)

/-! ## First occurrences -/

section

variable {α : Type} [BEq α] [LawfulBEq α] {xs ys : List α} {x : α}

theorem nodup_eraseDups (xs : List α) : xs.eraseDups.Nodup := by
  induction hn : xs.length using Nat.strong_induction_on generalizing xs with
  | _ n ih =>
  cases xs with
  | nil => exact .nil
  | cons x xs =>
      rw [List.eraseDups_cons, List.nodup_cons]
      refine ⟨fun again => ?_, ih _ ?_ _ rfl⟩
      · simpa using (List.mem_filter.1 (List.mem_eraseDups.1 again)).2
      · have := List.length_filter_le (fun b => !b == x) xs
        rw [← hn, List.length_cons]
        omega

/-- What has occurred before adds nothing. -/
theorem eraseDups_append_of_subset (old : ys ⊆ xs) : (xs ++ ys).eraseDups = xs.eraseDups := by
  have none_ : ys.removeAll xs = [] := by
    rw [List.removeAll, List.filter_eq_nil_iff]
    intro y there
    simpa using old there
  rw [List.eraseDups_append, none_, List.eraseDups_nil, List.append_nil]

theorem eraseDups_append_singleton (new : x ∉ xs) :
    (xs ++ [x]).eraseDups = xs.eraseDups ++ [x] := by
  have kept : [x].removeAll xs = [x] := by simpa [List.removeAll] using new
  rw [List.eraseDups_append, kept]
  rfl

/-- Where something occurs first is not up to what comes later. -/
theorem idxOf_eraseDups_of_isPrefix (before : xs <+: ys) (there : x ∈ xs) :
    ys.eraseDups.idxOf x = xs.eraseDups.idxOf x := by
  obtain ⟨zs, rfl⟩ := before
  rw [List.eraseDups_append, List.idxOf_append_of_mem (List.mem_eraseDups.2 there)]

end

namespace Store

variable {κ χ : Type} {s : Store κ χ} {n m c : Nat}

/-! ## Walks -/

/-- A node after all that it reads, with a bound on the depth. -/
def walkAt (s : Store κ χ) : Nat → Nat → List Nat
  | 0, _ => []
  | fuel + 1, n => (s.children n).flatMap (s.walkAt fuel) ++ [n]

/-- A node after all that it reads, once for each way that leads to it. -/
def walk (s : Store κ χ) : Nat → List Nat := s.walkAt (s.nodes.size + 1)

/-- The walk from several nodes, one after the other. -/
def walks (s : Store κ χ) (roots : List Nat) : List Nat := roots.flatMap s.walk

/-- The place of a node among those that the walk from the roots meets. -/
def place (s : Store κ χ) (roots : List Nat) (n : Nat) : Nat :=
  (s.walks roots).eraseDups.idxOf n

/-- The walk from a node ends with the node, after the walks from what it reads. -/
theorem Wired.walk_eq (wired : s.Wired) (n : Nat) : s.walk n = s.walks (s.children n) ++ [n] :=
  @Wired.unfold _ _ s _ _ (fun walk n => (s.children n).flatMap walk ++ [n]) wired (fun _ _ => rfl)
    (fun _ _ n same => congrArg (· ++ [n]) (List.flatMap_congr same)) n

@[simp] theorem walks_singleton (n : Nat) : s.walks [n] = s.walk n := List.append_nil _

theorem Wired.self_mem_walk (wired : s.Wired) (n : Nat) : n ∈ s.walk n := by
  rw [wired.walk_eq]
  exact List.mem_append_right _ (List.mem_singleton_self n)

/-- A walk meets exactly the nodes that it can lead to. -/
theorem Wired.mem_walk_iff (wired : s.Wired) : m ∈ s.walk n ↔ s.Leads n m := by
  constructor
  · intro there
    induction n using wired.wellFounded.induction with
    | _ n ih =>
    rw [wired.walk_eq, List.mem_append, List.mem_singleton] at there
    rcases there with below | rfl
    · obtain ⟨c, edge, there⟩ := List.mem_flatMap.1 below
      exact .head edge (ih c edge there)
    · exact .refl
  · intro leads
    induction leads using Relation.ReflTransGen.head_induction_on with
    | refl => exact wired.self_mem_walk m
    | head edge _ ih =>
        rw [wired.walk_eq]
        exact List.mem_append_left _ (List.mem_flatMap.2 ⟨_, edge, ih⟩)

/-- A node is not met before its own walk ends. -/
theorem Wired.not_mem_walks_children (wired : s.Wired) (n : Nat) : n ∉ s.walks (s.children n) := by
  intro there
  obtain ⟨c, edge, there⟩ := List.mem_flatMap.1 there
  exact wired.acyclic edge (wired.mem_walk_iff.1 there)

/-! ## Planning along a walk -/

/-- The nodes of the walk are planned, each at the place where the walk has met it first. -/
structure Walked (p : Planner κ χ) (walked : List Nat) : Prop where
  planned : p.planned = walked.eraseDups.zipIdx.reverse
  size : p.nodes.size = walked.eraseDups.length

/-- Planning has walked so far, and has these nodes ahead of it in a longer walk. Whatever it has met
    it has ended. -/
structure Stage (s : Store κ χ) (whole : List Nat) (p : Planner κ χ) (walked ahead : List Nat) :
    Prop where
  planned : Walked p walked
  ended : ∀ m ∈ walked, ∀ c ∈ s.children m, c ∈ walked
  within : walked ++ s.walks ahead <+: whole

/-- Some kernel that the node needs samples a node that has no place among the first ones. -/
def Crowded (s : Store κ χ) (whole : List Nat) (n : Nat) : Prop :=
  ∃ k, s.Needs n k ∧ ∃ c ∈ (s.kernel k).boundSamplers, 2 ^ 32 ≤ whole.eraseDups.idxOf c

/-- Planning a node gives its place in the walk and goes on with the walk from it. The graph is
    found to be too large only if it is. -/
def Numbers (s : Store κ χ) (whole : List Nat) (visit : Nat → Planner.Build κ χ Nat) (n : Nat) :
    Prop :=
  ∀ p walked, s.Stage whole p walked [n] → (visit n).Ends p
    (fun i p' => Walked p' (walked ++ s.walk n) ∧ i = whole.eraseDups.idxOf n)
    fun fault => fault = .invalidGraph .tooLarge → s.Crowded whole n

variable {whole walked ahead : List Nat} {p p' : Planner κ χ}

theorem Walked.mem_planned {i : Nat} (h : Walked p walked) :
    (n, i) ∈ p.planned ↔ walked.eraseDups[i]? = some n := by
  rw [h.planned, List.mem_reverse, List.mk_mem_zipIdx_iff_getElem?]

theorem Walked.eq_idxOf {i : Nat} (h : Walked p walked) (there : (n, i) ∈ p.planned) :
    n ∈ walked ∧ i = walked.eraseDups.idxOf n := by
  obtain ⟨inside, rfl⟩ := List.getElem?_eq_some_iff.1 (h.mem_planned.1 there)
  refine ⟨List.mem_eraseDups.1 (List.getElem_mem inside), ?_⟩
  exact ((nodup_eraseDups walked).idxOf_getElem i inside).symm

theorem Walked.start : Walked (⟨#[], [], []⟩ : Planner κ χ) [] := ⟨rfl, rfl⟩

theorem Stage.leads (h : s.Stage whole p walked ahead) (there : m ∈ walked) (leads : s.Leads m c) :
    c ∈ walked := by
  induction leads with
  | refl => exact there
  | tail _ edge ih => exact h.ended _ ih _ edge

/-- Walking on from what has been met changes nothing. -/
theorem Stage.again (h : s.Stage whole p walked [n]) (wired : s.Wired) (there : n ∈ walked) :
    Walked p (walked ++ s.walk n) := by
  have old : s.walk n ⊆ walked := fun m met => h.leads there (wired.mem_walk_iff.1 met)
  exact ⟨by rw [eraseDups_append_of_subset old, h.planned.planned],
    by rw [eraseDups_append_of_subset old, h.planned.size]⟩

theorem Stage.first {rest : List Nat} (h : s.Stage whole p walked (n :: rest)) :
    s.Stage whole p walked [n] := by
  refine ⟨h.planned, h.ended, .trans ?_ h.within⟩
  rw [walks_singleton]
  exact (List.prefix_append_right_inj walked).2 (List.prefix_append _ _)

theorem Stage.next {rest : List Nat} (h : s.Stage whole p walked (n :: rest)) (wired : s.Wired)
    (after : Walked p' (walked ++ s.walk n)) : s.Stage whole p' (walked ++ s.walk n) rest where
  planned := after
  ended m met c edge := by
    rcases List.mem_append.1 met with old | new
    · exact List.mem_append_left _ (h.ended m old c edge)
    · exact List.mem_append_right _
        (wired.mem_walk_iff.2 ((wired.mem_walk_iff.1 new).trans (.single edge)))
  within := by
    rw [List.append_assoc]
    exact h.within

theorem Stage.below (h : s.Stage whole p walked [n]) (wired : s.Wired) :
    s.Stage whole p walked (s.children n) := by
  refine ⟨h.planned, h.ended, .trans ?_ h.within⟩
  rw [walks_singleton, wired.walk_eq]
  exact (List.prefix_append_right_inj walked).2 (List.prefix_append _ _)

theorem Stage.place_eq (h : s.Stage whole p walked [n]) (wired : s.Wired) :
    whole.eraseDups.idxOf n = (walked ++ s.walk n).eraseDups.idxOf n := by
  refine idxOf_eraseDups_of_isPrefix ?_ (List.mem_append_right _ (wired.self_mem_walk n))
  rw [← walks_singleton]
  exact h.within

theorem Crowded.up (edge : c ∈ s.children n) (h : s.Crowded whole c) : s.Crowded whole n := by
  obtain ⟨k, needs, crowded⟩ := h
  exact ⟨k, Leads.needs (.single edge) needs, crowded⟩

/-- A node has been put behind those that were walked, and is yet to be listed. -/
structure Ahead (p : Planner κ χ) (walked : List Nat) (i : Nat) : Prop where
  planned : p.planned = walked.eraseDups.zipIdx.reverse
  size : p.nodes.size = walked.eraseDups.length + 1
  last : i = walked.eraseDups.length

theorem Ahead.listed {i : Nat} (h : Ahead p walked i) (new : n ∉ walked) :
    Walked { p with planned := (n, i) :: p.planned } (walked ++ [n]) ∧
      i = (walked ++ [n]).eraseDups.idxOf n := by
  have absent : n ∉ walked.eraseDups := fun there => new (List.mem_eraseDups.1 there)
  rw [eraseDups_append_singleton new]
  refine ⟨⟨?_, by simp [eraseDups_append_singleton new, h.size]⟩, ?_⟩
  · simp [eraseDups_append_singleton new, List.zipIdx_append, h.planned, h.last]
  · simp [List.idxOf_append_of_notMem absent, h.last]

variable [Scalar κ] {visit : Nat → Planner.Build κ χ Nat} {bad : Fault → Prop}

theorem ends_add {op : Plan.Op κ χ} {toWorld : Affine κ} {extent : Rect κ} (h : Walked p walked) :
    (Planner.add op toWorld extent).Ends p (fun i p' => Ahead p' walked i) bad :=
  .add ⟨h.planned, by simp [h.size], h.size⟩

/-! ## Arguments -/

section

omit [Scalar κ]

/-- The node that is bound at a slot. -/
def sampler? : Argument × Option Value → Option Nat
  | (_, some (.sampler (some n))) => some n
  | _ => none

variable {slot : Argument × Option Value} {kernel : String}

theorem argument_of_sampler (bound : sampler? slot = some c) :
    Planner.argument visit kernel slot = Planner.boundSampler visit c := by
  unfold sampler? at bound
  split at bound
  · cases bound
    rfl
  · cases bound

/-- Other arguments plan nothing. -/
theorem argument_of_not_sampler (plain : sampler? slot = none) :
    (Planner.argument visit kernel slot).Ends p (fun _ p' => p' = p)
      fun fault => fault ≠ .invalidGraph .tooLarge := by
  unfold Planner.argument
  split
  · split
    · exact .pure rfl
    · exact .fail nofun
  · cases plain
  · exact .pure rfl

/-- The place of one of the nodes, or of one that is sampled below it, is not among the first. -/
def CrowdedAmong (s : Store κ χ) (whole nodes : List Nat) : Prop :=
  ∃ c ∈ nodes, 2 ^ 32 ≤ whole.eraseDups.idxOf c ∨ s.Crowded whole c

/-- Arguments are planned along the walks from what is bound to them. -/
theorem arguments_numbers (wired : s.Wired) (slots : List (Argument × Option Value)) :
    ∀ {p walked}, s.Stage whole p walked (slots.filterMap sampler?) →
    (∀ c ∈ slots.filterMap sampler?, s.Numbers whole visit c) →
    (Planner.arguments visit kernel slots).Ends p
      (fun _ p' => Walked p' (walked ++ s.walks (slots.filterMap sampler?)))
      fun fault => fault = .invalidGraph .tooLarge →
        s.CrowdedAmong whole (slots.filterMap sampler?) := by
  induction slots with
  | nil =>
      intro p walked stage _
      exact .pure (by simpa [walks] using stage.planned)
  | cons slot rest ih =>
      intro p walked stage numbers
      rw [Planner.arguments_cons]
      cases bound : sampler? slot with
      | none =>
          rw [List.filterMap_cons_none bound] at stage numbers ⊢
          refine .andThen ((argument_of_not_sampler bound).mono (fun _ _ => id)
            fun fault other large => absurd large other) ?_
          rintro v _ rfl
          exact .andThen (ih stage numbers) fun _ _ planned => .pure planned
      | some c =>
          rw [List.filterMap_cons_some bound] at stage numbers ⊢
          have later (crowded : s.CrowdedAmong whole (rest.filterMap sampler?)) :
              s.CrowdedAmong whole (c :: rest.filterMap sampler?) := by
            obtain ⟨c', there, crowded⟩ := crowded
            exact ⟨c', .tail _ there, crowded⟩
          have first : (Planner.boundSampler visit c).Ends p
              (fun _ p' => Walked p' (walked ++ s.walk c)) fun fault =>
                fault = .invalidGraph .tooLarge →
                  s.CrowdedAmong whole (c :: rest.filterMap sampler?) := by
            refine .boundSampler ((numbers c (.head _) p walked stage.first).mono ?_ ?_)
            · rintro i p' ⟨planned, rfl⟩
              exact ⟨fun _ => planned, fun beyond _ => ⟨c, .head _, .inl beyond⟩⟩
            · exact fun fault crowded large => ⟨c, .head _, .inr (crowded large)⟩
          rw [argument_of_sampler bound]
          refine .andThen first fun v p' planned => .andThen ((ih (stage.next wired planned)
            fun c' there => numbers c' (.tail _ there)).mono (fun _ _ => id)
            fun fault crowded large => later (crowded large)) fun vs p'' planned => .pure ?_
          rw [List.append_assoc] at planned
          exact planned

end

/-! ## Nodes -/

/-- A kernel is planned after what is bound to it. -/
theorem kernelNode_numbers (wired : s.Wired) {k : Nat} {target : Target} {extent : Rect κ}
    (stage : s.Stage whole p walked (s.kernel k).boundSamplers)
    (numbers : ∀ c ∈ (s.kernel k).boundSamplers, s.Numbers whole visit c) :
    (Planner.kernelNode s visit k target extent).Ends p
      (fun i p' => Ahead p' (walked ++ s.walks (s.kernel k).boundSamplers) i)
      fun fault => fault = .invalidGraph .tooLarge →
        s.CrowdedAmong whole (s.kernel k).boundSamplers := by
  unfold Planner.kernelNode
  refine .read (.check (fun _ => nofun) fun _ => ?_)
  split
  · exact .fail nofun
  · refine .check (fun _ => nofun) fun _ => .change ?_
    refine .andThen (arguments_numbers wired (s.kernel k).slots
      (p := { p with active := k :: p.active }) ⟨⟨stage.planned.planned, stage.planned.size⟩,
        stage.ended, stage.within⟩ numbers) fun args p' planned => .change (ends_add ?_)
    exact ⟨planned.planned, planned.size⟩

theorem fresh_numbers (wired : s.Wired) (stage : s.Stage whole p walked [n])
    (numbers : ∀ c ∈ s.children n, s.Numbers whole visit c) :
    (Planner.fresh s visit n).Ends p (fun i p' => Ahead p' (walked ++ s.walks (s.children n)) i)
      fun fault => fault = .invalidGraph .tooLarge → s.Crowded whole n := by
  have below := stage.below wired
  have child {c : Nat} (only : s.children n = [c]) := (numbers c (by simp [only]) p walked
    (only ▸ below)).mono (fun i p' h => h.1) fun fault crowded large =>
      (crowded large).up (by simp [only] : c ∈ s.children n)
  unfold Planner.fresh
  cases node : s.node n with
  | empty | buffer =>
      have none_ : s.children n = [] := by simp [children, node]
      rw [none_]
      exact ends_add (by simpa [walks] using stage.planned)
  | canvas c =>
      have none_ : s.children n = [] := by simp [children, node]
      rw [none_]
      dsimp only
      split
      all_goals exact ends_add (by simpa [walks] using stage.planned)
  | transform c t =>
      have only : s.children n = [c] := by simp [children, node]
      refine .andThen (child only) fun i p' planned => ?_
      split
      · exact .fail (by simp)
      · rw [only, walks_singleton]
        exact .bind (.read (.pure (ends_add planned)))
  | crop c rect =>
      have only : s.children n = [c] := by simp [children, node]
      refine .andThen (child only) fun i p' planned => ?_
      rw [only, walks_singleton]
      exact .bind (.read (.pure (ends_add planned)))
  | kernel k policy =>
      have same : s.children n = (s.kernel k).boundSamplers := by simp [children, node]
      rw [same] at below numbers ⊢
      refine (kernelNode_numbers wired below numbers).mono (fun _ _ => id) fun fault crowded large => ?_
      obtain ⟨c, bound, beyond | crowded⟩ := crowded large
      · exact ⟨k, ⟨n, .refl, isImageOf_iff.2 ⟨policy, node⟩⟩, c, bound, beyond⟩
      · exact crowded.up (same ▸ bound)

/-- Whatever the room, planning goes along the walk. -/
theorem Wired.numbers (wired : s.Wired) (whole : List Nat) (limit room : Nat) :
    ∀ n, s.Numbers whole (Planner.visit s limit room) n := by
  induction room with
  | zero => exact fun n p walked stage => .fail nofun
  | succ room ih =>
      intro n p walked stage
      unfold Planner.visit
      refine .read ?_
      cases listed : p.planned.lookup n with
      | some i =>
          have there : (n, i) ∈ p.planned := by
            obtain ⟨before, after, same, -⟩ := List.lookup_eq_some_iff.1 listed
            simp [same]
          obtain ⟨met, place⟩ := stage.planned.eq_idxOf there
          refine .pure ⟨stage.again wired met, place.trans ?_⟩
          refine (idxOf_eraseDups_of_isPrefix ?_ met).symm
          exact (List.prefix_append _ _).trans stage.within
      | none =>
          have new : n ∉ walked := by
            intro met
            obtain ⟨i, inside, at_⟩ := List.getElem_of_mem (List.mem_eraseDups.2 met)
            have there := stage.planned.mem_planned.2 (List.getElem?_eq_some_iff.2 ⟨inside, at_⟩)
            simpa using List.lookup_eq_none_iff.1 listed _ there
          refine .andThen (fresh_numbers wired stage fun c _ => ih c) fun i p' ahead =>
            .change (.pure ?_)
          have alone : n ∉ walked ++ s.walks (s.children n) := by
            rw [List.mem_append, not_or]
            exact ⟨new, wired.not_mem_walks_children n⟩
          obtain ⟨planned, place⟩ := ahead.listed alone
          rw [stage.place_eq wired, wired.walk_eq, ← List.append_assoc]
          exact ⟨planned, place⟩

/-! ## Places in finished plans -/

section

omit [Scalar κ]

variable {roots : List Nat}

/-- The nodes that kernels below the node sample have places that fit into 32 bits, in the walk from
    the roots. -/
def Numbered (s : Store κ χ) (roots : List Nat) (n : Nat) : Prop :=
  ∀ k, s.Needs n k → ∀ c ∈ (s.kernel k).boundSamplers, s.place roots c < 2 ^ 32

theorem not_crowded_iff : ¬ s.Crowded (s.walks roots) n ↔ s.Numbered roots n := by
  simp only [Crowded, Numbered, place, not_exists, not_and, Nat.not_le]

theorem Stage.start (roots : List Nat) : s.Stage (s.walks roots) ⟨#[], [], []⟩ [] roots where
  planned := .start
  ended := nofun
  within := by simp

/-- The root of a walk is its last node. -/
theorem Wired.place_self (wired : s.Wired) (n : Nat) :
    s.place [n] n + 1 = (s.walk n).eraseDups.length := by
  have new := wired.not_mem_walks_children n
  have absent : n ∉ (s.walks (s.children n)).eraseDups := fun there => new (List.mem_eraseDups.1 there)
  rw [place, walks_singleton, wired.walk_eq, eraseDups_append_singleton new]
  simp [List.idxOf_append_of_notMem absent]

/-- There are no more places than nodes. -/
theorem Wired.place_lt (wired : s.Wired) (inside : ∀ r ∈ roots, r < s.nodes.size)
    (there : c ∈ s.walks roots) : s.place roots c < s.nodes.size := by
  have below : (s.walks roots).eraseDups ⊆ List.range s.nodes.size := by
    intro m met
    obtain ⟨r, root, met⟩ := List.mem_flatMap.1 (List.mem_eraseDups.1 met)
    rw [List.mem_range]
    rcases Relation.ReflTransGen.cases_tail (wired.mem_walk_iff.1 met) with rfl | ⟨x, -, edge⟩
    · exact inside _ root
    · exact child_lt wired edge
  have few := ((nodup_eraseDups (s.walks roots)).subperm below).length_le
  rw [List.length_range] at few
  exact Nat.lt_of_lt_of_le (List.idxOf_lt_length_of_mem (List.mem_eraseDups.2 there)) few

/-- In a store of no more than so many nodes all places fit. -/
theorem Wired.numbered (wired : s.Wired) (few : s.nodes.size ≤ 2 ^ 32)
    (inside : ∀ r ∈ roots, r < s.nodes.size) (there : n ∈ s.walks roots) :
    s.Numbered roots n := by
  intro k ⟨m, leads, image⟩ c bound
  obtain ⟨r, root, met⟩ := List.mem_flatMap.1 there
  have below : s.Leads r c := ((wired.mem_walk_iff.1 met).trans leads).trans
    (.single (mem_children_of_isImageOf image bound))
  exact Nat.lt_of_lt_of_le (wired.place_lt inside
    (List.mem_flatMap.2 ⟨r, root, wired.mem_walk_iff.2 below⟩)) few

end

/-- The graph is found to be too large only if some place does not fit. -/
theorem Wired.not_numbered (wired : s.Wired) {limits : Limits}
    (refused : Plan.forImage s limits n = .error (.invalidGraph .tooLarge)) : ¬ s.Numbered [n] n := by
  have ended := build_eq
    (wired.numbers (s.walks [n]) limits.depth (limits.depth + 1) n _ [] (.start [n]))
  rw [show Plan.build _ = .error _ from refused] at ended
  exact fun numbered => not_crowded_iff.2 numbered (ended rfl)

end Store
end PixelKernel.Graph
