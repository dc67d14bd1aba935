import PixelKernel.Proofs.Graph.Agreement
import PixelKernel.Proofs.Graph.Extents
import PixelKernel.Proofs.Graph.Ordering
import PixelKernel.Proofs.Machine.Hosts

/-! # Reading plans with checks

A plan is read again with a check at every place that is looked up, and with a count of levels.
Since nodes read nodes before them, no check fails, and a node needs no more levels than there are
places up to it. A running kernel is asked about through its host, which notes what it cannot
answer.
-/

namespace PixelKernel

open PixelKernel.Language (Corresponds Host Program Trap Value)

/-! ## Notes -/

namespace Language

variable {σ : Type}

/-- The host with a flag beside its state that it never touches. -/
def Host.flagged (host : Host σ) : Host (σ × Bool) where
  destination := host.destination
  sample k p s := let (r, s') := host.sample k p s.1; (r, s', s.2)
  transform k p s := let (r, s') := host.transform k p s.1; (r, s', s.2)
  extent k s := let (r, s') := host.extent k s.1; (r, s', s.2)
  emit c s := let (r, s') := host.emit c s.1; (r, s', s.2)

theorem Host.alike_flagged (host : Host σ) :
    host.Alike (fun s => (s, true)) True host.flagged where
  destination := rfl
  sample _ _ _ := rfl
  transform _ _ _ := rfl
  extent _ _ := rfl
  emit _ _ _ := rfl

end Language

namespace Graph

/-- The colour that a program has for its result. -/
def colourFrom (program : Program) : Except Trap (Option Value) → Except Trap (Rgba Float32)
  | .error t => .error t
  | .ok (some (.vec4 r g b a)) => .ok ⟨r, g, b, a⟩
  | .ok _ => .error (.noColour program.kernelName)

/-- The records that have been emitted, if there is a result. -/
def recordsFrom (records : Array (Rgba Float32)) :
    Except Trap (Option Value) → Except Trap (Array (Rgba Float32))
  | .error t => .error t
  | .ok _ => .ok records

theorem colourFrom_congr {program : Program} {r : Option Nat → Option Nat → Prop}
    {x y : Except Trap (Option Value)} (h : Corresponds (Option.Rel (Value.Renamed r)) x y) :
    colourFrom program x = colourFrom program y := by
  cases h with
  | error t => rfl
  | ok h =>
      cases h with
      | none => rfl
      | some h =>
          cases h with
          | plain => rfl
          | sampler => rfl

theorem recordsFrom_congr {R : Option Value → Option Value → Prop}
    {x y : Except Trap (Option Value)} (h : Corresponds R x y) (records : Array (Rgba Float32)) :
    recordsFrom records x = recordsFrom records y := by
  cases h <;> rfl

namespace Plan

variable {σ : Type} (plan : Plan Float Float32)

/-! ## Checked reading -/

/-- What is known of a place. If nothing is, another answer is given, and that is noted. -/
def look {α : Type} (other : α) (answer : Plan.Node Float Float32 → Option α) (i : Nat)
    (s : σ × Bool) : α × σ × Bool :=
  match (plan.nodes[i]?).bind answer with
  | some a => (a, s)
  | none => (other, s.1, false)

/-- The host of a kernel that reads the plan through checks. -/
def checkedHost (sample : Nat → Point Float → Option (Except Trap (Rgba Float32)))
    (p : Point Float) (emit : Rgba Float32 → σ → Except Trap Unit × σ) : Host (σ × Bool) where
  destination := pairOf p
  sample
    | none, _, s => (.ok .transparent, s)
    | some i, q, s =>
      plan.look (.ok .transparent) (fun node => sample i (node.toWorld.apply (pointOf q))) i s
  transform
    | none, q, s => (q, s)
    | some i, q, s =>
      plan.look q (fun node => some (pairOf (node.fromWorld.apply (pointOf q)))) i s
  extent
    | none, s => (Access.host.corners .plane, s)
    | some i, s => plan.look (Access.host.corners .plane)
        (fun node => some (Access.host.corners (node.fromWorld.mapExtent node.extent))) i s
  emit c s := let (r, s') := emit c s.1; (r, s', s.2)

/-- Colour of a node at a point. There is none if a place is looked up where the plan has no node,
    or if nodes read each other over more levels than `depth`. -/
def checkedColour (budget : Nat) :
    (depth : Nat) → Nat → Point Float → Option (Except Trap (Rgba Float32))
  | 0, _, _ => none
  | depth + 1, i, p =>
    match plan.nodes[i]? with
    | none => none
    | some node =>
      match node.op with
      | .empty => some (.ok .transparent)
      | .pixels grid origin interpolate =>
        some (.ok (grid.sample interpolate (⟨p.x - origin.x, p.y - origin.y⟩ : Point Float)))
      | .kernel program args =>
        let host : Host (Unit × Bool) :=
          plan.checkedHost (checkedColour budget depth) p fun _ s => (.error .emitOutside, s)
        let run := program.run args host budget ((), true)
        if run.state.2 then some (colourFrom program run.result) else none
      | .transform child inverse => checkedColour budget depth child (inverse.apply p)
      | .crop child rect =>
        if rect.contains p then checkedColour budget depth child p else some (.ok .transparent)

/-- Records of the root, with the same checks. -/
def checkedEmit (budget depth : Nat) (p : Point Float) (records : Array (Rgba Float32)) :
    Option (Except Trap (Array (Rgba Float32))) :=
  match plan.nodes[plan.root]? with
  | none => none
  | some ⟨.kernel program args, _, _, _⟩ =>
    let host : Host (Array (Rgba Float32) × Bool) :=
      plan.checkedHost (plan.checkedColour budget depth) p fun c s => (.ok (), s.push c)
    let run := program.run args host budget (records, true)
    if run.state.2 then some (recordsFrom run.state.1 run.result) else none
  | some _ => some (.error .noReduceRoot)

/-! ## No check fails -/

variable {plan} {n : Nat}
  {sample : Nat → Point Float → Option (Except Trap (Rgba Float32))}
  {colour : Nat → Point Float → Except Trap (Rgba Float32)}

section

variable (p : Point Float) (emit : Rgba Float32 → σ → Except Trap Unit × σ)

/-- For nodes that are there, the checked host answers what the other one does. -/
theorem checkedHost_renamed (inside : n ≤ plan.nodes.size)
    (same : ∀ i < n, ∀ q, sample i q = some (colour i q)) :
    (plan.checkedHost sample p emit).Renamed (Option.Rel fun i j => i = j ∧ i < n)
      ((plan.access colour).host p emit).flagged where
  unbound := .none
  destination := rfl
  sample {a b} h := by
    cases h with
    | none => rfl
    | @some i _ h =>
        obtain ⟨rfl, before⟩ := h
        have there := Array.getElem?_eq_getElem (before.trans_le inside)
        funext q s
        simp [checkedHost, look, Host.flagged, Access.host, access, there, same i before]
  transform {a b} h := by
    cases h with
    | none => rfl
    | @some i _ h =>
        obtain ⟨rfl, before⟩ := h
        have there := Array.getElem?_eq_getElem (before.trans_le inside)
        funext q s
        simp [checkedHost, look, Host.flagged, Access.host, access, there]
  extent {a b} h := by
    cases h with
    | none => rfl
    | @some i _ h =>
        obtain ⟨rfl, before⟩ := h
        have there := Array.getElem?_eq_getElem (before.trans_le inside)
        funext s
        simp [checkedHost, look, Host.flagged, Access.host, access, there]
  emit := rfl

/-- So a run with checks is the run without, and nothing is noted. -/
theorem run_checked {program : Program} {args : List Value} (plain : ∀ v ∈ program.consts, v.Plain)
    (inside : n ≤ plan.nodes.size) (same : ∀ i < n, ∀ q, sample i q = some (colour i q))
    (before : ∀ i, .sampler (some i) ∈ args → i < n) (budget : Nat) (s : σ) :
    (program.run args (plan.checkedHost sample p emit) budget (s, true)).state =
        ((program.run args ((plan.access colour).host p emit) budget s).state, true) ∧
      Corresponds (Option.Rel (Value.Renamed (Option.Rel fun i j => i = j ∧ i < n)))
        (program.run args (plan.checkedHost sample p emit) budget (s, true)).result
        (program.run args ((plan.access colour).host p emit) budget s).result := by
  have unique : Relator.BiUnique fun i j => i = j ∧ i < n :=
    ⟨fun _ _ _ h h' => h.1.trans h'.1.symm, fun _ _ _ h h' => h.1.symm.trans h'.1⟩
  have given : List.Forall₂ (Value.Renamed (Option.Rel fun i j => i = j ∧ i < n)) args args :=
    List.forall₂_same.2 fun v there => Store.renamed_self fun i eq => ⟨rfl, before i (eq ▸ there)⟩
  have runs := Program.run_renamed (checkedHost_renamed p emit inside same) plain given
    (.inl (faithful_of_biUnique unique)) budget (s, true)
  have flagged : program.run args ((plan.access colour).host p emit).flagged budget (s, true) = _ :=
    Program.run_alike (Host.alike_flagged _) (.inr trivial) args budget s
  rw [flagged] at runs
  exact ⟨runs.state, runs.result⟩

end

/-- What makes a plan safe to read: nodes read nodes before them, and programs hold no samplers of
    their own. -/
structure Safe (plan : Plan Float Float32) : Prop where
  ordered : plan.Ordered
  plain : ∀ {i : Nat} {node program args}, plan.nodes[i]? = some node →
    node.op = .kernel program args → ∀ v ∈ program.consts, v.Plain

theorem sampler_mem_reads {program : Program} {args : List Value} {i : Nat}
    (there : .sampler (some i) ∈ args) :
    i ∈ (.kernel program args : Plan.Op Float Float32).reads :=
  List.mem_filterMap.2 ⟨_, there, rfl⟩

/-- Reading a node with checks, over more levels than there are nodes before it. -/
theorem Safe.checkedColour_eq (safe : plan.Safe) (budget : Nat) {depth i : Nat} (levels : i < depth)
    (inside : i < plan.nodes.size) (p : Point Float) :
    plan.checkedColour budget depth i p = some (plan.colour (runForColour budget) i p) := by
  induction depth generalizing i p with
  | zero => exact absurd levels (Nat.not_lt_zero i)
  | succ depth ih =>
      have there := Array.getElem?_eq_getElem inside
      generalize plan.nodes[i] = node at there
      have before := safe.ordered.before there
      have below {j : Nat} (read : j ∈ node.op.reads) (q : Point Float) :
          plan.checkedColour budget depth j q = some (plan.colour (runForColour budget) j q) :=
        ih (by have := before j read; omega) ((before j read).trans inside) q
      rw [checkedColour, Plan.colour, there]
      dsimp only
      cases op : node.op with
      | empty => rfl
      | pixels => rfl
      | transform child inverse =>
          have read : child ∈ node.op.reads := by rw [op]; exact List.mem_singleton_self child
          simp only [below read, before child read, dif_pos]
      | crop child rect =>
          have read : child ∈ node.op.reads := by rw [op]; exact List.mem_singleton_self child
          simp only [below read, before child read, dif_pos]
          split <;> rfl
      | kernel program args =>
          dsimp only
          have same (j : Nat) (less : j < i) (q : Point Float) :
              plan.checkedColour budget depth j q = some (if _h : j < i then
                plan.colour (runForColour budget) j q else .ok .transparent) := by
            rw [dif_pos less]
            exact ih (by omega) (less.trans inside) q
          have reads (j : Nat) (given : .sampler (some j) ∈ args) : j < i :=
            before j (op ▸ sampler_mem_reads given)
          obtain ⟨state, result⟩ := run_checked p (fun _ (s : Unit) => (.error .emitOutside, s))
            (safe.plain there op) inside.le same reads budget ()
          rw [state, if_pos rfl, colourFrom_congr result]
          rfl

/-- Reading the records of the root with checks. -/
theorem Safe.checkedEmit_eq (safe : plan.Safe) (budget : Nat) (p : Point Float)
    (records : Array (Rgba Float32)) :
    plan.checkedEmit budget plan.root p records = some (plan.emit budget p records) := by
  have inside : plan.root < plan.nodes.size := safe.ordered.last ▸ Nat.lt_succ_self plan.root
  have there := Array.getElem?_eq_getElem inside
  generalize plan.nodes[plan.root] = node at there
  obtain ⟨op, toWorld, fromWorld, extent⟩ := node
  rw [checkedEmit, Plan.emit, there]
  cases op with
  | kernel program args =>
      dsimp only
      have same (j : Nat) (less : j < plan.root) (q : Point Float) :=
        safe.checkedColour_eq budget less (less.trans inside) q
      have reads (j : Nat) (given : .sampler (some j) ∈ args) : j < plan.root :=
        safe.ordered.before there j (sampler_mem_reads given)
      obtain ⟨state, result⟩ := run_checked p
        (fun c (s : Array (Rgba Float32)) => (.ok (), s.push c)) (safe.plain there rfl) inside.le
        same reads budget records
      rw [state, if_pos rfl, recordsFrom_congr result]
      rfl
  | _ => rfl

end Plan
namespace Store

variable {s : Store Float Float32} {plan : Plan Float Float32} {table : List (Nat × Nat)}
  {nodes : Set Nat} {size : Nat}

/-! ## Accepted graphs -/

/-- The plan has been made of an image or of a kernel that emits records. -/
inductive Makes (s : Store Float Float32) (plan : Plan Float Float32) : Prop where
  | image {limits n} (accepted : Plan.forImage s limits n = .ok plan)
  | records {limits k} (accepted : Plan.forRecords s limits k = .ok plan)

theorem Lays.plain (h : s.Lays nodes plan size table) (sourced : s.Sourced) {i : Nat}
    {node : Plan.Node Float Float32} {program : Program} {args : List Value}
    (there : plan.nodes[i]? = some node) (op : node.op = .kernel program args) (inside : i < size) :
    ∀ v ∈ program.consts, v.Plain := by
  obtain ⟨m, found, -⟩ := h.filled i inside
  obtain ⟨op', there', depicts⟩ := h.stands found
  rw [there] at there'
  cases there'
  cases op
  generalize s.node m = node at depicts
  cases depicts with
  | kernel compiled => exact sourced.plain compiled

theorem Makes.safe (h : s.Makes plan) (wired : s.Wired) (sourced : s.Sourced) : plan.Safe := by
  cases h with
  | image accepted =>
      obtain ⟨ordered, table, laid, -⟩ := wired.forImage_laid accepted
      exact ⟨ordered, fun there op =>
        laid.plain sourced there op (Array.getElem?_eq_some_iff.1 there).1⟩
  | records accepted =>
      obtain ⟨ordered, table, laid, program, args, heads⟩ := wired.forRecords_laid accepted
      refine ⟨ordered, fun {i node program' args'} there op => ?_⟩
      rcases Nat.lt_or_ge i plan.root with below | top
      · exact laid.plain sourced there op below
      · have inside := (Array.getElem?_eq_some_iff.1 there).1
        have last := ordered.last
        obtain rfl : i = plan.root := by omega
        rw [heads.root] at there
        cases there
        cases op
        exact sourced.plain heads.compiled

/-- Plans of a store are in order. -/
structure PlansInOrder (s : Store Float Float32) : Prop where
  /-- Each node below an image has one place in its plan, behind all that it reads, and there are
      no other places. The image is the last one. -/
  image : ∀ {limits n plan}, Plan.forImage s limits n = .ok plan → plan.Ordered ∧
    ∃ table, s.Lays {m | s.Leads n m} plan plan.nodes.size table ∧ (n, plan.root) ∈ table
  /-- So has each node below a kernel that emits records, and the kernel has the last place. -/
  records : ∀ {limits k plan}, Plan.forRecords s limits k = .ok plan → plan.Ordered ∧
    ∃ table, s.Lays {m | ∃ c ∈ (s.kernel k).boundSamplers, s.Leads c m} plan plan.root table ∧
      ∃ program args, s.Heads k plan table program args
  /-- Reading a node of a plan looks up places in the plan only, and goes through at most as many
      levels as there are places up to the node. -/
  colour : ∀ {plan}, s.Makes plan → ∀ budget i p, i < plan.nodes.size →
    plan.checkedColour budget (i + 1) i p = some (plan.colour (runForColour budget) i p)
  emit : ∀ {plan}, s.Makes plan → ∀ budget p records,
    plan.checkedEmit budget plan.root p records = some (plan.emit budget p records)

end Store

/-- Every graph that is accepted has a plan in order, in which evaluation stays inside. -/
theorem Reached.plans_inOrder {run : Nat → Runner Float Float32}
    {ops : List (Operation Float Float32)} {s : Store Float Float32} (h : Reached run ops s) :
    s.PlansInOrder where
  image accepted := (Store.Wired.of_reached h).forImage_laid accepted
  records accepted := (Store.Wired.of_reached h).forRecords_laid accepted
  colour made budget i p inside := by
    have safe := made.safe (.of_reached h) (.of_reached h)
    exact safe.checkedColour_eq budget (Nat.lt_succ_self i) inside p
  emit made budget p records := by
    have safe := made.safe (.of_reached h) (.of_reached h)
    exact safe.checkedEmit_eq budget p records

/-- One pixel that is bound to both arguments is planned once. -/
theorem squares_inOrder : ∃ plan,
    Plan.forImage (squares [some (.sampler (some 0)), some (.sampler (some 0))]) .standard 2 =
      .ok plan ∧ plan.root = 1 ∧ plan.nodes.size = 2 ∧
    ∀ budget p,
      plan.checkedColour budget 2 1 p = some (plan.rootColour (runForColour budget) p) := by
  obtain ⟨ops, reached⟩ := reached_squares_bound (n := 0) (m := 0) (by decide) (by decide)
  have inOrder := reached.plans_inOrder
  have made : ∃ plan, Plan.forImage (squares [some (.sampler (some 0)), some (.sampler (some 0))])
      .standard 2 = .ok plan ∧ plan.root = 1 := ⟨_, rfl, rfl⟩
  obtain ⟨plan, accepted, root⟩ := made
  obtain ⟨ordered, -⟩ := inOrder.image accepted
  have size := ordered.last
  rw [root] at size
  refine ⟨plan, accepted, root, size.symm, fun budget p => ?_⟩
  rw [Plan.rootColour, root]
  exact inOrder.colour (.image accepted) budget 1 p (size ▸ Nat.lt_succ_self 1)

end Graph
end PixelKernel
