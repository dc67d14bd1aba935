import PixelKernel.Proofs.Graph.Agreement
import PixelKernel.Proofs.Graph.Extents
import PixelKernel.Proofs.Graph.Numbering

/-! # How deep a graph may be

Planning refuses a graph when it is about to go down further than the limit. A node that was
planned before is not gone down into again, so the check sees one of the ways to each node. It
covers all of them where they are equally long.
-/

namespace PixelKernel.Graph

namespace Store

section

variable {κ χ : Type} {s : Store κ χ}

/-! ## Ways that are cut off -/

/-- All ways from the node to another one are equally long. -/
def Levelled (s : Store κ χ) (n : Nat) : Prop :=
  ∀ l l' m, s.Path n l m → s.Path n l' m → l = l'

/-- Ways go down level by level if edges do. -/
theorem Path.level_eq {level : Nat → Nat} (falls : ∀ n, ∀ c ∈ s.children n, level c = level n + 1)
    {n l m : Nat} (way : s.Path n l m) : level m = level n + l := by
  induction way with
  | here => rfl
  | down edge _ ih =>
      rw [ih, falls _ _ edge]
      omega

theorem levelled_of_level {level : Nat → Nat}
    (falls : ∀ n, ∀ c ∈ s.children n, level c = level n + 1) (n : Nat) : s.Levelled n := by
  intro l l' m way way'
  have := way.level_eq falls
  have := way'.level_eq falls
  omega

/-- A recursion that goes down the edges needs no more levels than the longest way has nodes. -/
theorem enough_of_paths {α : Type} {at_ : Nat → Nat → α} {step : (Nat → α) → Nat → α}
    (succ : ∀ fuel n, at_ (fuel + 1) n = step (at_ fuel) n)
    (congr : ∀ f g n, (∀ c ∈ s.children n, f c = g c) → step f n = step g n) {fuel fuel' n : Nat}
    (h : ∀ l m, s.Path n l m → l < fuel) (h' : ∀ l m, s.Path n l m → l < fuel') :
    at_ fuel n = at_ fuel' n := by
  induction fuel generalizing fuel' n with
  | zero => exact absurd (h 0 n (.here n)) (Nat.lt_irrefl 0)
  | succ fuel ih =>
      cases fuel' with
      | zero => exact absurd (h' 0 n (.here n)) (Nat.lt_irrefl 0)
      | succ fuel' =>
          rw [succ, succ]
          refine congr _ _ n fun c edge => ih (fun l m way => ?_) (fun l m way => ?_)
          · exact Nat.lt_of_succ_lt_succ (h _ _ (.down edge way))
          · exact Nat.lt_of_succ_lt_succ (h' _ _ (.down edge way))

/-! ## What planning finds -/

/-- Nothing is wrong at any node below, apart from how deep it lies and what place it gets. -/
structure Valid [Scalar κ] (s : Store κ χ) (n : Nat) : Prop where
  compiled : ∀ k, s.Needs n k → ∃ program, (s.kernel k).program? = some program ∧
    program.target = .normal
  bound : ∀ k, s.Needs n k → ∀ a, (a, none) ∈ (s.kernel k).slots → a.ty = .sampler
  invertible : ∀ m child t, s.Leads n m → s.node m = .transform child t → t.inverse?.isSome

/-- Nothing is wrong at any node below, apart from how deep it lies: the graph is valid, and places
    fit into 32 bits, as they do in every store of up to `2 ^ 32` nodes. -/
structure Plannable [Scalar κ] (s : Store κ χ) (n : Nat) : Prop extends s.Valid n where
  numbered : s.Numbered [n] n

/-- Planning the image reports that it is too deep. -/
def TooDeep [Scalar κ] [Scalar χ] (s : Store κ χ) (limits : Limits) (n : Nat) : Prop :=
  ∃ limit, Plan.forImage s limits n = .error (.invalidGraph (.tooDeep limit))

variable {n : Nat}

/-- Ways are made of edges, whatever order they come in. -/
theorem Path.of_children {s' : Store κ χ} (same : ∀ m c, c ∈ s'.children m ↔ c ∈ s.children m)
    {l m : Nat} (h : s'.Path n l m) : s.Path n l m := by
  induction h with
  | here n => exact .here n
  | down edge _ ih => exact .down ((same _ _).1 edge) ih

variable [Scalar κ] {limits : Limits} {plan : Plan κ χ}

/-- Each node below an image that is planned is met on a way that the limit allows. -/
theorem Wired.near (wired : s.Wired) (accepted : Plan.forImage s limits n = .ok plan) {m : Nat}
    (leads : s.Leads n m) : ∃ l ≤ limits.depth, s.Path n l m := by
  obtain ⟨p, -, visited⟩ := wired.forImage_ok accepted
  obtain ⟨j, there⟩ := visited.planned.closed visited.found leads
  obtain ⟨l, room, way⟩ := (visited.near there).resolve_left List.not_mem_nil
  exact ⟨l, Nat.le_of_lt_succ room, way⟩

theorem Wired.within (wired : s.Wired) (levelled : s.Levelled n)
    (accepted : Plan.forImage s limits n = .ok plan) {l m : Nat} (way : s.Path n l m) :
    l ≤ limits.depth := by
  obtain ⟨l', allowed, way'⟩ := wired.near accepted way.leads
  exact levelled l l' m way way' ▸ allowed

theorem Wired.deep (wired : s.Wired) {limit : Nat}
    (refused : Plan.forImage s limits n = .error (.invalidGraph (.tooDeep limit))) :
    limit = limits.depth ∧ ∃ m, s.Path n (limits.depth + 1) m := by
  cases wired.forImage_error refused with
  | tooDeep way => exact ⟨rfl, _, way⟩

variable [Scalar χ]

/-- Where nothing else is wrong, refusal is for depth. -/
theorem Wired.tooDeep_of_error (wired : s.Wired) (plannable : s.Plannable n) {fault : Fault}
    (refused : Plan.forImage s limits n = .error fault) : s.TooDeep limits n := by
  refine ⟨limits.depth, ?_⟩
  rw [refused]
  cases wired.forImage_error refused with
  | tooDeep => rfl
  | tooLarge => exact absurd plannable.numbered (wired.not_numbered refused)
  | notCompiled needs not =>
      obtain ⟨program, compiled, -⟩ := plannable.compiled _ needs
      rw [not] at compiled
      cases compiled
  | wrongTarget needs compiled other =>
      obtain ⟨program, compiled', normal⟩ := plannable.compiled _ needs
      rw [compiled] at compiled'
      cases compiled'
      exact absurd normal other
  | unbound needs compiled missing needed =>
      exact absurd (plannable.bound _ needs _ missing) needed
  | singular leads moved singular =>
      have invertible := plannable.invertible _ _ _ leads moved
      rw [singular] at invertible
      cases invertible

/-- Too deep is what has a way that is longer than the limit. -/
theorem Wired.tooDeep_iff (wired : s.Wired) (levelled : s.Levelled n) (plannable : s.Plannable n) :
    s.TooDeep limits n ↔ ∃ l m, limits.depth < l ∧ s.Path n l m := by
  constructor
  · rintro ⟨limit, refused⟩
    obtain ⟨-, m, way⟩ := wired.deep refused
    exact ⟨_, m, Nat.lt_succ_self _, way⟩
  · rintro ⟨l, m, long, way⟩
    cases planned : Plan.forImage s limits n with
    | ok plan => exact absurd (wired.within levelled planned way) (Nat.not_le.2 long)
    | error fault => exact wired.tooDeep_of_error plannable planned

end

variable {s : Store Float Float32} {limits : Limits} {plan : Plan Float Float32} {n : Nat}

/-- Reading that stops below the last allowed edge misses nothing. -/
theorem Wired.colourAt_eq (wired : s.Wired) (sourced : s.Sourced) (levelled : s.Levelled n)
    (accepted : Plan.forImage s limits n = .ok plan) (budget : Nat) :
    s.colourAt (runForColour budget) (limits.depth + 1) n = plan.rootColour (runForColour budget) := by
  rw [wired.rootColour_eq sourced accepted]
  refine enough_of_paths
    (fun fuel n => (rfl : s.colourAt (runForColour budget) (fuel + 1) n = _))
    (colourOf_congr sourced budget) (fun l m way => ?_) (fun l m way => ?_)
  · exact Nat.lt_succ_of_le (wired.within levelled accepted way)
  · exact Nat.lt_succ_of_le (wired.path_le way)

/-- What the limit on the depth of graphs comes to. -/
structure DepthLimited (s : Store Float Float32) : Prop where
  /-- Below an accepted image, some way to each node is short enough. -/
  near : ∀ limits n plan, Plan.forImage s limits n = .ok plan → ∀ m, s.Leads n m →
    ∃ l ≤ limits.depth, s.Path n l m
  /-- The limit is reported only if some way is too long for it. -/
  deep : ∀ limits n limit, Plan.forImage s limits n = .error (.invalidGraph (.tooDeep limit)) →
    limit = limits.depth ∧ ∃ m, s.Path n (limits.depth + 1) m
  /-- Every way is short enough if no two ways to one node differ in length. -/
  within : ∀ limits n plan, s.Levelled n → Plan.forImage s limits n = .ok plan → ∀ l m,
    s.Path n l m → l ≤ limits.depth
  /-- Then evaluation nests at most one level more than the limit has edges. -/
  nested : ∀ limits n plan, s.Levelled n → Plan.forImage s limits n = .ok plan → ∀ budget,
    s.colourAt (runForColour budget) (limits.depth + 1) n = plan.rootColour (runForColour budget)
  /-- And unless something else is wrong, the limit is reported just if some way is too long. -/
  reported : ∀ limits n, s.Levelled n → s.Plannable n →
    (s.TooDeep limits n ↔ ∃ l m, limits.depth < l ∧ s.Path n l m)
  /-- So it makes no difference in which order kernels declare what they read. -/
  order : ∀ ops s', Reached runForColour ops s' →
    (∀ m c, c ∈ s'.children m ↔ c ∈ s.children m) → ∀ limits n, s.Levelled n → s.Plannable n →
      s'.Plannable n → (s'.TooDeep limits n ↔ s.TooDeep limits n)

end Store

/-- Whatever is done to a store, its graphs are held to the limit. -/
theorem Reached.depth_limited {ops : List (Operation Float Float32)} {s : Store Float Float32}
    (h : Reached runForColour ops s) : s.DepthLimited := by
  have wired := Store.Wired.of_reached h
  have sourced := Store.Sourced.of_reached h
  exact {
    near := fun limits n plan accepted m leads => wired.near accepted leads
    deep := fun limits n limit refused => wired.deep refused
    within := fun limits n plan levelled accepted l m way => wired.within levelled accepted way
    nested := fun limits n plan levelled accepted budget =>
      wired.colourAt_eq sourced levelled accepted budget
    reported := fun limits n levelled plannable => wired.tooDeep_iff levelled plannable
    order := fun ops' s' h' same limits n levelled plannable plannable' => by
      have wired' := Store.Wired.of_reached h'
      have back {l m} (way : s.Path n l m) : s'.Path n l m :=
        way.of_children fun m c => (same m c).symm
      have levelled' : s'.Levelled n := fun l l' m way way' =>
        levelled l l' m (way.of_children same) (way'.of_children same)
      rw [wired'.tooDeep_iff levelled' plannable', wired.tooDeep_iff levelled plannable]
      exact ⟨fun ⟨l, m, long, way⟩ => ⟨l, m, long, way.of_children same⟩,
        fun ⟨l, m, long, way⟩ => ⟨l, m, long, back way⟩⟩ }

/-- A square, its left and its right half, and the sum of the halves; what is bound is given. -/
def halves (bindings : List (Option Language.Value)) : Store Float Float32 :=
  summed #[pixelOver ⟨0, 0, 10, 10⟩, .crop 0 ⟨0, 0, 5, 10⟩, .crop 0 ⟨5, 0, 10, 10⟩,
    .kernel 0 .infinite] bindings

/-- Both halves are bound, so that two ways lead from the sum to the square. -/
def halved : Store Float Float32 := halves [some (.sampler (some 1)), some (.sampler (some 2))]

theorem reached_halved : ∃ ops, Reached runForColour ops halved := by
  have square : ∃ ops, Reached runForColour ops
      (summed #[pixelOver ⟨0, 0, 10, 10⟩] [none, none]) :=
    reached_summed_push (pixelOver _) ⟨_, reached_summed⟩ trivial
  have crops : ∃ ops, Reached runForColour ops (summed #[pixelOver ⟨0, 0, 10, 10⟩,
      .crop 0 ⟨0, 0, 5, 10⟩, .crop 0 ⟨5, 0, 10, 10⟩] [none, none]) :=
    reached_summed_push (.crop 0 _) (reached_summed_push (.crop 0 _) square Nat.one_pos) Nat.two_pos
  have reached : ∃ ops, Reached runForColour ops (halves [none, none]) :=
    reached_summed_push (.kernel 0 _) crops Nat.one_pos
  have left : ∃ ops, Reached runForColour ops (halves [some (.sampler (some 1)), none]) :=
    reached_summed_bind "a" (show 1 < 4 by decide) rfl reached
  exact reached_summed_bind "b" (show 2 < 4 by decide) rfl left

/-- The sum is above its halves, and they are above the square. -/
theorem halved_falls (n : Nat) : ∀ c ∈ halved.children n,
    ([2, 1, 1, 0][c]?).getD 0 = ([2, 1, 1, 0][n]?).getD 0 + 1 := by
  rcases n with _ | _ | _ | _ | n
  · exact fun c edge => nomatch edge
  · exact fun c edge => by obtain rfl := List.mem_singleton.1 (show c ∈ [0] from edge); rfl
  · exact fun c edge => by obtain rfl := List.mem_singleton.1 (show c ∈ [0] from edge); rfl
  · exact List.forall_mem_cons.2 ⟨rfl, List.forall_mem_singleton.2 rfl⟩
  · exact fun c edge => nomatch edge

theorem plannable_halved : halved.Plannable 3 := by
  obtain ⟨ops, reached⟩ := reached_halved
  have only {k m : Nat} (image : halved.isImageOf k m = true) : k = 0 := by
    rcases m with _ | _ | _ | _ | m
    · cases image
    · cases image
    · cases image
    · exact (beq_iff_eq.1 image).symm
    · cases image
  refine ⟨⟨fun k ⟨m, _, image⟩ => ?_, fun k ⟨m, _, image⟩ => ?_, fun m child t _ moved => ?_⟩, ?_⟩
  · cases only image
    exact ⟨_, rfl, rfl⟩
  · cases only image
    have slots : (halved.kernel 0).slots = [(⟨"a", .sampler, false⟩, some (.sampler (some 1))),
      (⟨"b", .sampler, false⟩, some (.sampler (some 2)))] := rfl
    simp [slots]
  · rcases m with _ | _ | _ | _ | m <;> cases moved
  · exact (Store.Wired.of_reached reached).numbered (show 4 ≤ 2 ^ 32 by decide)
      (List.forall_mem_singleton.2 (show 3 < 4 by decide))
      (Store.walks_singleton (s := halved) 3 ▸ (Store.Wired.of_reached reached).self_mem_walk 3)

theorem halved_depthLimited : halved.TooDeep ⟨9, 1⟩ 3 ∧
    (∃ plan, Plan.forImage halved ⟨9, 2⟩ 3 = .ok plan) ∧ ∀ l m, halved.Path 3 l m → l ≤ 2 := by
  obtain ⟨ops, reached⟩ := reached_halved
  have limited := reached.depth_limited
  have levelled : halved.Levelled 3 := Store.levelled_of_level halved_falls 3
  have planned : ∃ plan, Plan.forImage halved ⟨9, 2⟩ 3 = .ok plan := ⟨_, rfl⟩
  have way : halved.Path 3 2 0 :=
    .down (show 1 ∈ [1, 2] from .head _) (.down (show 0 ∈ [0] from .head _) (.here 0))
  refine ⟨(limited.reported ⟨9, 1⟩ 3 levelled plannable_halved).2 ⟨2, 0, by decide, way⟩, planned, ?_⟩
  obtain ⟨plan, accepted⟩ := planned
  exact limited.within ⟨9, 2⟩ 3 plan levelled accepted

end PixelKernel.Graph
