import PixelKernel.Proofs.Geometry.Cover
import PixelKernel.Proofs.Graph.Ordering

/-! # Moved and cropped nodes

Below a node of a plan lies a base under any number of transforms and crops. In exact arithmetic the
map of the node is the product of the transforms, and what is read of the node at a point of the
base is what the base shows there, unless a crop on the way cuts it off.
-/

namespace PixelKernel.Graph

/-- What moves or cuts an image. -/
inductive Wrapper where
  | moved (t : Affine Rat)
  | cropped (rect : Rect Rat)

namespace Wrapper

/-- Product of the maps, the outermost applied last. The outermost comes first in the list. -/
def product : List Wrapper → Affine Rat
  | [] => .identity
  | moved t :: below => t.after (product below)
  | cropped _ :: below => product below

/-- Each crop contains the point, taken to the crop by the maps below it. -/
def shows : List Wrapper → Point Rat → Bool
  | [], _ => true
  | moved _ :: below, c => shows below c
  | cropped rect :: below, c => rect.contains ((product below).apply c) && shows below c

/-- There are no crops. -/
def Uncut (ws : List Wrapper) : Prop := ∀ rect, cropped rect ∉ ws

theorem Uncut.shows {ws : List Wrapper} (uncut : Uncut ws) (c : Point Rat) : shows ws c = true := by
  induction ws with
  | nil => rfl
  | cons w below ih =>
      have rest : Uncut below := fun rect there => uncut rect (.tail _ there)
      cases w with
      | moved t => exact ih rest
      | cropped rect => exact absurd (.head _) (uncut rect)

end Wrapper

open Wrapper (product shows Uncut)

variable {χ : Type}

namespace Store

/-- The node is the base, which is neither moved nor cropped, under the wrappers. -/
inductive Wraps (s : Store Rat χ) (base : Nat) : Nat → List Wrapper → Prop where
  | bare (picture : (s.node base).base? = none) : s.Wraps base base []
  | moved {n child t ws} (node : s.node n = .transform child t) (below : s.Wraps base child ws) :
      s.Wraps base n (.moved t :: ws)
  | cropped {n child rect ws} (node : s.node n = .crop child rect)
      (below : s.Wraps base child ws) : s.Wraps base n (.cropped rect :: ws)

variable {s : Store Rat χ} {plan : Plan Rat χ} {nodes : Set Nat} {size n base : Nat}
  {table : List (Nat × Nat)} {ws : List Wrapper}

theorem Wraps.picture (h : s.Wraps base n ws) : (s.node base).base? = none := by
  induction h with
  | bare picture => exact picture
  | moved _ _ ih | cropped _ _ ih => exact ih

/-- Every node lies on a base. By induction on nodes, which are older below. -/
theorem Wired.wraps (wired : s.Wired) (n : Nat) : ∃ base ws, s.Wraps base n ws := by
  induction n using Nat.strong_induction_on with
  | _ n ih =>
  cases node : s.node n with
  | transform child t =>
      obtain ⟨base, ws, below⟩ := ih child (wired.older (congrArg Node.base? node))
      exact ⟨base, _, .moved node below⟩
  | crop child rect =>
      obtain ⟨base, ws, below⟩ := ih child (wired.older (congrArg Node.base? node))
      exact ⟨base, _, .cropped node below⟩
  | empty | buffer | kernel | canvas => exact ⟨n, [], .bare (congrArg Node.base? node)⟩

theorem Wraps.toWorld_eq (h : s.Wraps base n ws) (wired : s.Wired) : s.toWorld n = product ws := by
  induction h with
  | bare picture =>
      rw [wired.toWorld_eq, toWorldOf]
      cases node : s.node base with
      | transform | crop => rw [node] at picture; cases picture
      | empty | buffer | kernel | canvas => rfl
  | moved node below ih => rw [wired.toWorld_eq, toWorldOf, node, product, ← ih]
  | cropped node below ih => rw [wired.toWorld_eq, toWorldOf, node, product, ← ih]

variable [Scalar χ] [Narrow Rat χ] {i : Nat}

/-- The place of a transform: the place below is read where the inverse leads. -/
theorem Lays.transform (h : s.Lays nodes plan size table) {child : Nat} {t : Affine Rat}
    (there : (n, i) ∈ table) (node : s.node n = .transform child t) :
    ∃ j inverse, (child, j) ∈ table ∧ t.inverse? = some inverse ∧
      ∀ run p, plan.colour run i p = plan.colour run j (inverse.apply p) := by
  obtain ⟨op, found, depicts⟩ := h.stands there
  rw [node] at depicts
  cases depicts with
  | transform below before invertible =>
      refine ⟨_, _, below, invertible, fun run p => ?_⟩
      rw [Plan.colour, found]
      exact dif_pos before

/-- The place of a crop: the place below is read inside the rectangle. -/
theorem Lays.crop (h : s.Lays nodes plan size table) {child : Nat} {rect : Rect Rat}
    (there : (n, i) ∈ table) (node : s.node n = .crop child rect) :
    ∃ j, (child, j) ∈ table ∧ ∀ run p, plan.colour run i p =
      if rect.contains p then plan.colour run j p else .ok .transparent := by
  obtain ⟨op, found, depicts⟩ := h.stands there
  rw [node] at depicts
  cases depicts with
  | crop below before =>
      refine ⟨_, below, fun run p => ?_⟩
      rw [Plan.colour, found]
      simp only [before, dif_pos]

/-- The place of a picture shows the texels. -/
theorem Lays.colour_buffer (h : s.Lays nodes plan size table) {b : Buffer Rat χ}
    (there : (n, i) ∈ table) (node : s.node n = .buffer b) (run : Runner Rat χ) (p : Point Rat) :
    plan.colour run i p = .ok (b.grid.sample b.interpolate p) := by
  obtain ⟨op, found, depicts⟩ := h.stands there
  rw [node] at depicts
  exact depicts.colour_buffer found (fun v => sub_zero v) run p

/-- Down to the base of a place, wrapper by wrapper: the transforms can be inverted together, and
    each of them takes a point of the base on to the next. -/
theorem Wraps.colour (h : s.Wraps base n ws) (laid : s.Lays nodes plan size table)
    (there : (n, i) ∈ table) : (product ws).determinant ≠ 0 ∧ ∃ j, (base, j) ∈ table ∧
      ∀ run c, plan.colour run i ((product ws).apply c) =
        if shows ws c then plan.colour run j c else .ok .transparent := by
  induction h generalizing i with
  | bare =>
      refine ⟨Affine.determinant_identity ▸ one_ne_zero, i, there, fun run c => ?_⟩
      rw [product, Affine.apply_identity]
      rfl
  | @moved n child t ws node below ih =>
      obtain ⟨k, inverse, placed, invertible, read⟩ := laid.transform there node
      obtain ⟨regular, j, found, shown⟩ := ih placed
      refine ⟨?_, j, found, fun run c => ?_⟩
      · rw [product, Affine.determinant_after]
        exact mul_ne_zero (Affine.determinant_ne_zero invertible) regular
      · rw [product, Affine.apply_after, read, Affine.inverse_apply invertible, shown]
        rfl
  | @cropped n child rect ws node below ih =>
      obtain ⟨k, placed, read⟩ := laid.crop there node
      obtain ⟨regular, j, found, shown⟩ := ih placed
      refine ⟨regular, j, found, fun run c => ?_⟩
      rw [product, read, shown, shows]
      cases rect.contains ((product ws).apply c) <;> rfl

/-- Without crops a place reads the base where the inverse of the product leads. -/
theorem Wraps.colour_uncut (h : s.Wraps base n ws) (uncut : Uncut ws)
    (laid : s.Lays nodes plan size table) (there : (n, i) ∈ table) : ∃ j, (base, j) ∈ table ∧
      ∀ run p, plan.colour run i p =
        plan.colour run j ((product ws).reciprocalInverse.apply p) := by
  obtain ⟨regular, j, found, shown⟩ := h.colour laid there
  refine ⟨j, found, fun run p => ?_⟩
  have shown := shown run ((product ws).reciprocalInverse.apply p)
  rwa [Affine.apply_reciprocalInverse regular, uncut.shows, if_pos rfl] at shown

end Store

/-! ## Coherence -/

/-- What a kernel samples of a place at a point: the colour where the map of the place leads. -/
def Access.sampled {κ χ : Type} [Scalar κ] (access : Access κ χ) (i : Nat) (c : Point κ) :
    Except Language.Trap (Rgba χ) :=
  access.sample i ((access.toWorld i).apply c)

theorem Plan.sampled_eq {κ χ : Type} [Scalar κ] {plan : Plan κ χ} {i : Nat} {node : Plan.Node κ χ}
    (there : plan.nodes[i]? = some node) (sample : Nat → Point κ → Except Language.Trap (Rgba χ))
    (c : Point κ) : (plan.access sample).sampled i c = sample i (node.toWorld.apply c) := by
  simp only [Access.sampled, access, there, Option.map_some, Option.getD_some]

variable [Scalar χ] [Narrow Rat χ]

/-- One place of a plan shows what another one shows, under the wrappers. -/
structure Plan.Carries (plan : Plan Rat χ) (ws : List Wrapper) (i j : Nat)
    (node : Plan.Node Rat χ) : Prop where
  there : plan.nodes[i]? = some node
  toWorld : node.toWorld = product ws
  right : node.toWorld.after node.fromWorld = .identity
  left : node.fromWorld.after node.toWorld = .identity
  colour : ∀ run c, plan.colour run i (node.toWorld.apply c) =
    if shows ws c then plan.colour run j c else .ok .transparent
  sampled : ∀ run c, (plan.access (plan.colour run)).sampled i c =
    if shows ws c then plan.colour run j c else .ok .transparent

namespace Store

variable {s : Store Rat χ} {plan plan' : Plan Rat χ} {nodes nodes' : Set Nat}
  {size size' n m base i j j' k : Nat} {table table' : List (Nat × Nat)} {ws : List Wrapper}

theorem Wraps.carries (h : s.Wraps base n ws) (wired : s.Wired)
    (laid : s.Lays nodes plan size table) (there : (n, i) ∈ table) :
    ∃ j node, (base, j) ∈ table ∧ plan.Carries ws i j node := by
  obtain ⟨op, stands, -⟩ := laid.stands there
  obtain ⟨regular, j, found, shown⟩ := h.colour laid there
  rw [h.toWorld_eq wired] at stands
  refine ⟨j, _, found, stands, rfl, Affine.after_reciprocalInverse regular,
    Affine.reciprocalInverse_after regular, shown, fun run c => ?_⟩
  rw [Plan.sampled_eq stands, shown]

/-- Nested transforms show what one transform by their product shows, in one plan or in two. -/
theorem Wraps.single (h : s.Wraps base n ws) (uncut : Uncut ws)
    (node : s.node m = .transform base (product ws)) (laid : s.Lays nodes plan size table)
    (laid' : s.Lays nodes' plan' size' table') (there : (n, i) ∈ table) (found : (base, j) ∈ table)
    (there' : (m, k) ∈ table') (found' : (base, j') ∈ table') {run run' : Runner Rat χ}
    (same : plan.colour run j = plan'.colour run' j') :
    plan.colour run i = plan'.colour run' k := by
  have once : s.Wraps base m [.moved (product ws)] := .moved node (.bare h.picture)
  have plain : Uncut [.moved (product ws)] := by
    intro rect there
    cases List.mem_singleton.1 there
  obtain ⟨l, placed, read⟩ := h.colour_uncut uncut laid there
  obtain ⟨l', placed', read'⟩ := once.colour_uncut plain laid' there'
  obtain rfl := (laid.placed base (laid.inside found).1).unique placed found
  obtain rfl := (laid'.placed base (laid'.inside found').1).unique placed' found'
  funext p
  rw [read, read', same, product, product, Affine.after_identity]

/-- A picture that is made flat twice by a map that can be inverted is so flat that the product
    counts as singular. -/
example : (Affine.scaling 1 (1 / 2 ^ 30) : Affine Rat).inverse?.isSome = true ∧
    (product [.moved (.scaling 1 (1 / 2 ^ 30)), .moved (.scaling 1 (1 / 2 ^ 30))]).inverse? =
      none := by
  decide +kernel

/-- Maps of plans agree with what the plans show. -/
structure MapsCohere (s : Store Rat χ) : Prop where
  /-- A table has the places of all nodes that an image leads to, and there are no others. -/
  image : ∀ {limits n plan}, Plan.forImage s limits n = .ok plan →
    ∃ table, s.Lays {m | s.Leads n m} plan plan.nodes.size table ∧ (n, plan.root) ∈ table
  /-- Besides these a plan for records has a place for its kernel. -/
  records : ∀ {limits k plan}, Plan.forRecords s limits k = .ok plan →
    ∃ table, s.Lays {m | ∃ c ∈ (s.kernel k).boundSamplers, s.Leads c m} plan plan.root table ∧
      ∃ program args, s.Heads k plan table program args
  wraps : ∀ n, ∃ base ws, s.Wraps base n ws
  /-- In each of these tables a node shows its base under what lies between. -/
  carries : ∀ {nodes plan size table}, s.Lays nodes plan size table →
    ∀ {n i base ws}, (n, i) ∈ table → s.Wraps base n ws →
      ∃ j node, (base, j) ∈ table ∧ plan.Carries ws i j node
  /-- Nested transforms show what one transform by their product shows, in one plan or in two. That
      one need not have a plan: a product may count as singular where its factors do not. -/
  single : ∀ {nodes plan size table}, s.Lays nodes plan size table →
    ∀ {nodes' plan' size' table'}, s.Lays nodes' plan' size' table' →
    ∀ {n m base ws}, s.Wraps base n ws → Uncut ws → s.node m = .transform base (product ws) →
    ∀ {i j k j'}, (n, i) ∈ table → (base, j) ∈ table → (m, k) ∈ table' → (base, j') ∈ table' →
    ∀ {run run'}, plan.colour run j = plan'.colour run' j' →
      plan.colour run i = plan'.colour run' k

end Store

/-- Whatever is done to a store, its nodes show their bases under the transforms and crops between
    them, and the maps of the nodes are the products of these transforms. -/
theorem Reached.maps_cohere {run : Nat → Runner Rat χ} {ops : List (Operation Rat χ)}
    {s : Store Rat χ} (h : Reached run ops s) : s.MapsCohere where
  image accepted := ((Store.Wired.of_reached h).forImage_laid accepted).2
  records accepted := ((Store.Wired.of_reached h).forRecords_laid accepted).2
  wraps := (Store.Wired.of_reached h).wraps
  carries laid _ _ _ _ there wraps := wraps.carries (.of_reached h) laid there
  single laid _ _ _ _ laid' _ _ _ _ wraps uncut node _ _ _ _ there found there' found' _ _ same :=
    wraps.single uncut node laid laid' there found there' found' same

/-- A white pixel. -/
def whitePixel : Node Rat Rat := .buffer ⟨.filled 1 1 ⟨1, 1, 1, 1⟩, none, false⟩

/-- The pixel, twice as large, cut to its left half and moved to the right; and the same without the
    cut, in two steps and in one. -/
def halfPixel : Store Rat Rat where
  kernels := #[]
  nodes := #[whitePixel, .transform 0 (.scaling 2 2), .crop 1 ⟨0, 0, 1, 2⟩,
    .transform 2 (.displacement 10 0), .transform 1 (.displacement 10 0),
    .transform 0 ⟨2, 0, 0, 2, 10, 0⟩]
  canvases := #[]
  subscriptions := 0

/-- What lies over the pixel in the half that is cut out. -/
def halfWrappers : List Wrapper :=
  [.moved (.displacement 10 0), .cropped ⟨0, 0, 1, 2⟩, .moved (.scaling 2 2)]

theorem reached_halfPixel : Reached (fun _ _ _ _ _ => .ok .transparent)
    [.newNode (.transform 0 ⟨2, 0, 0, 2, 10, 0⟩), .newNode (.transform 1 (.displacement 10 0)),
      .newNode (.transform 2 (.displacement 10 0)), .newNode (.crop 1 ⟨0, 0, 1, 2⟩),
      .newNode (.transform 0 (.scaling 2 2)), .newNode whitePixel] halfPixel := by
  have pixel : Reached (fun _ _ _ _ _ => .ok .transparent) [.newNode whitePixel]
      { halfPixel with nodes := #[whitePixel] } :=
    .step .new (show whitePixel.Refers .new from trivial)
  have move (nodes : Array (Node Rat Rat)) (child : Nat) (t : Affine Rat)
      (there : child < nodes.size) : ∀ {ops}, Reached (fun _ _ _ _ _ => .ok .transparent) ops
      { halfPixel with nodes } → Reached (fun _ _ _ _ _ => .ok .transparent)
        (.newNode (.transform child t) :: ops)
        { halfPixel with nodes := nodes.push (.transform child t) } :=
    fun before => .step before there
  have large : Reached (fun _ _ _ _ _ => .ok .transparent)
      [.newNode (.transform 0 (.scaling 2 2)), .newNode whitePixel]
      { halfPixel with nodes := #[whitePixel, .transform 0 (.scaling 2 2)] } :=
    move _ _ _ (by decide) pixel
  have half : Reached (fun _ _ _ _ _ => .ok .transparent)
      [.newNode (.crop 1 ⟨0, 0, 1, 2⟩), .newNode (.transform 0 (.scaling 2 2)),
        .newNode whitePixel]
      { halfPixel with
        nodes := #[whitePixel, .transform 0 (.scaling 2 2), .crop 1 ⟨0, 0, 1, 2⟩] } :=
    .step large (show 1 < 2 by decide)
  exact move _ _ _ (by decide) (move _ _ _ (by decide) (move _ _ _ (by decide) half))

theorem planned_halfPixel {n : Nat} (inside : n < 6) :
    ∃ plan, Plan.forImage halfPixel .standard n = .ok plan := by
  have planned : ∀ m < 6, (Plan.forImage halfPixel .standard m).isOk = true := by decide +kernel
  exact isOk_iff.1 (planned n inside)

theorem halfPixel_carries : (∃ plan, Plan.forImage halfPixel .standard 3 = .ok plan ∧ ∀ run,
      plan.rootColour run ⟨21 / 2, 1⟩ = .ok ⟨1, 1, 1, 1⟩ ∧
      plan.rootColour run ⟨23 / 2, 1⟩ = .ok .transparent) ∧
    ∃ plan plan', Plan.forImage halfPixel .standard 4 = .ok plan ∧
      Plan.forImage halfPixel .standard 5 = .ok plan' ∧
      ∀ run run', plan.rootColour run = plan'.rootColour run' := by
  have coherent := reached_halfPixel.maps_cohere
  have bare : halfPixel.Wraps 0 0 [] := .bare rfl
  have large : halfPixel.Wraps 0 1 [.moved (.scaling 2 2)] := .moved rfl bare
  constructor
  · have half : halfPixel.Wraps 0 3 halfWrappers := .moved rfl (.cropped rfl large)
    obtain ⟨plan, accepted⟩ := planned_halfPixel (n := 3) (by decide)
    obtain ⟨table, laid, root⟩ := coherent.image accepted
    obtain ⟨j, node, found, carried⟩ := coherent.carries laid root half
    refine ⟨plan, accepted, fun run => ?_⟩
    have read (c : Point Rat) := carried.colour run c
    simp only [carried.toWorld, laid.colour_buffer found rfl run] at read
    have left : (product halfWrappers).apply ⟨1 / 4, 1 / 2⟩ = ⟨21 / 2, 1⟩ := by decide +kernel
    have right : (product halfWrappers).apply ⟨3 / 4, 1 / 2⟩ = ⟨23 / 2, 1⟩ := by decide +kernel
    have shown := read ⟨1 / 4, 1 / 2⟩
    have hidden := read ⟨3 / 4, 1 / 2⟩
    rw [left, if_pos (by decide +kernel)] at shown
    rw [right, if_neg (by decide +kernel)] at hidden
    exact ⟨shown.trans (congrArg _ (by decide +kernel)), hidden⟩
  · have whole : halfPixel.Wraps 0 4 [.moved (.displacement 10 0), .moved (.scaling 2 2)] :=
      .moved rfl large
    have once : halfPixel.Wraps 0 5 [.moved ⟨2, 0, 0, 2, 10, 0⟩] := .moved rfl bare
    obtain ⟨plan, accepted⟩ := planned_halfPixel (n := 4) (by decide)
    obtain ⟨plan', accepted'⟩ := planned_halfPixel (n := 5) (by decide)
    obtain ⟨table, laid, root⟩ := coherent.image accepted
    obtain ⟨table', laid', root'⟩ := coherent.image accepted'
    obtain ⟨j, -, found, -⟩ := coherent.carries laid root whole
    obtain ⟨j', -, found', -⟩ := coherent.carries laid' root' once
    refine ⟨plan, plan', accepted, accepted', fun run run' => ?_⟩
    have pixel : plan.colour run j = plan'.colour run' j' := by
      funext p
      rw [laid.colour_buffer found rfl, laid'.colour_buffer found' rfl]
    have uncut : Uncut [.moved (.displacement 10 0), .moved (.scaling 2 2)] := by
      simp [Uncut]
    have product : halfPixel.node 5 =
        .transform 0 (product [.moved (.displacement 10 0), .moved (.scaling 2 2)]) :=
      congrArg (Node.transform 0) (by decide +kernel)
    exact coherent.single laid laid' whole uncut product root found root' found' pixel

end PixelKernel.Graph
