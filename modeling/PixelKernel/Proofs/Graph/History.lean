import PixelKernel.Graph.Canvas
import PixelKernel.Graph.Change

/-! # Histories

All that can be done to a store, one operation after the other. Handles are given out by
operations that came before, so an operation names only what is there. A store that some
history leads to is one that a program can have.
-/

namespace PixelKernel.Graph

open PixelKernel.Language (Argument Value)

inductive Operation (κ χ : Type) where
  | newKernel
  | compile (k : Nat) (source : String)
  | compileLines (k : Nat) (lines : List String)
  /-- Binds an argument, or unbinds it. -/
  | bind (k : Nat) (name : String) (v : Option Value)
  | bindJson (k : Nat) (name : String) (v : Json)
  | subscribe (k : Nat)
  | unsubscribe (k n : Nat)
  | newNode (n : Node κ χ)
  /-- Makes a canvas, if the allocator grants its bytes. -/
  | newCanvas (extent : Rect κ) (limits : Limits) (allocates : Nat → Bool)
  | clear (c : Nat) (colour : Rgba χ)
  | composite (c n : Nat) (origin : Point κ)

variable {κ χ : Type} [Scalar κ] [Scalar χ] [Narrow κ χ]

namespace Operation

/-- What the operation answers, and the store that it leaves. -/
def perform (run : Nat → Runner κ χ) (s : Store κ χ) :
    Operation κ χ → Except Fault Unit × Store κ χ
  | newKernel => (.ok (), s.addKernel.2)
  | compile k source => ((s.compile k source).result, (s.compile k source).store)
  | compileLines k lines => ((s.compileLines k lines).result, (s.compileLines k lines).store)
  | bind k name v => ((s.bind k name v).result, (s.bind k name v).store)
  | bindJson k name v => ((s.bindJson k name v).result, (s.bindJson k name v).store)
  | subscribe k => (.ok (), (s.subscribe k).2)
  | unsubscribe k n => (.ok (), (s.unsubscribe k n).2)
  | newNode (.kernel k policy) =>
    match s.addKernelNode k policy with
    | .error fault => (.error fault, s)
    | .ok (_, s) => (.ok (), s)
  | newNode n => (.ok (), (s.addNode n).2)
  | newCanvas extent limits allocates =>
    match Canvas.new extent limits allocates with
    | .error fault => (.error fault, s)
    | .ok c => (.ok (), (s.addCanvas c).2)
  | clear c colour => (.ok (), s.clear c colour)
  | composite c n origin => s.composite run c n origin

end Operation

/-- The node refers to what is in the store. -/
def Node.Refers (s : Store κ χ) : Node κ χ → Prop
  | .kernel k _ => k < s.kernels.size
  | .transform child _ | .crop child _ => child < s.nodes.size
  | .canvas c => c < s.canvases.size
  | .empty | .buffer _ => True

/-- A value to bind; a sampler is always some node. -/
def Store.Offers (s : Store κ χ) : Value → Prop
  | .sampler n => ∃ m, n = some m ∧ m < s.nodes.size
  | _ => True

/-- The operation names only what is there. -/
def Operation.Names (s : Store κ χ) : Operation κ χ → Prop
  | .newKernel | .newCanvas .. => True
  | .compile k _ | .compileLines k _ | .bindJson k _ _ | .subscribe k | .unsubscribe k _ =>
    k < s.kernels.size
  | .bind k _ v => k < s.kernels.size ∧ ∀ w ∈ v, s.Offers w
  | .newNode n => n.Refers s
  | .clear c _ => c < s.canvases.size
  | .composite c n _ => c < s.canvases.size ∧ n < s.nodes.size

/-- The store that a history leads to. The latest operation comes first. -/
inductive Reached (run : Nat → Runner κ χ) : List (Operation κ χ) → Store κ χ → Prop where
  | new : Reached run [] .new
  | step {op ops s} (before : Reached run ops s) (names : op.Names s) :
      Reached run (op :: ops) (op.perform run s).2

/-! ## Parts of a changed store -/

namespace Store

variable {s : Store κ χ} {k : Nat} {kernel : Kernel}

omit [Scalar κ] [Scalar χ] [Narrow κ χ]

theorem kernel_setKernel_self (there : k < s.kernels.size) :
    (s.setKernel k kernel).kernel k = kernel := by
  simp [Store.kernel, setKernel, Array.getD, there]

theorem kernel_setKernel_ne {j : Nat} (other : j ≠ k) :
    (s.setKernel k kernel).kernel j = s.kernel j := by
  simp [Store.kernel, setKernel, Array.getD_eq_getD_getElem?,
    Array.getElem?_setIfInBounds_ne other.symm]

/-- A new kernel is like a kernel that is not there. -/
@[simp] theorem kernel_addKernel (j : Nat) : s.addKernel.2.kernel j = s.kernel j := by
  simp only [Store.kernel, addKernel, Array.getD_eq_getD_getElem?, Array.getElem?_push]
  split
  · next same => simp [same]
  · rfl

theorem node_addNode (n : Node κ χ) (m : Nat) :
    (s.addNode n).2.node m = if m = s.nodes.size then n else s.node m := by
  simp only [node, addNode, Array.getD_eq_getD_getElem?, Array.getElem?_push]
  split <;> rfl

end Store

/-! ## What an operation can do -/

/-- What can become of a kernel. -/
inductive Store.Turns (s : Store κ χ) (k : Nat) : Kernel → Prop where
  | compiled (source : String) : s.Turns k ((s.kernel k).compile source)
  | bound {name v i w} (placed : s.placement k name v = .ok (i, w)) (offers : ∀ w ∈ v, s.Offers w) :
      s.Turns k ((s.kernel k).setBinding i w)
  | observed (observers : List Nat) : s.Turns k { s.kernel k with observers }

/-- What can become of a store in one step. -/
inductive Store.Step (s : Store κ χ) : Store κ χ → Prop where
  | stay : s.Step s
  | newKernel : s.Step s.addKernel.2
  | kernel {k kernel} (there : k < s.kernels.size) (turns : s.Turns k kernel) (count : Nat) :
      s.Step { s.setKernel k kernel with subscriptions := count }
  | newNode {n} (refers : n.Refers s) : s.Step (s.addNode n).2
  | newCanvas (c : Canvas κ χ) : s.Step (s.addCanvas c).2
  | drawn (i : Nat) (c : Canvas κ χ) : s.Step (s.setCanvas i c)

namespace Store

omit [Scalar κ] [Scalar χ] [Narrow κ χ]

variable {s : Store κ χ} {k : Nat} {name : String}

theorem step_bind {v : Option Value} (there : k < s.kernels.size) (offers : ∀ w ∈ v, s.Offers w) :
    s.Step (s.bind k name v).store := by
  unfold bind
  split
  · exact .stay
  · next placed => exact .kernel there (.bound placed offers) s.subscriptions

/-- Data never stands for a sampler. -/
theorem offers_ofJson {v : Json} {w : Option Value} (h : Binding.ofJson v = .ok w) :
    ∀ x ∈ w, s.Offers x := by
  have plain {xs : List Float32} {x : Value} (made : Value.ofLanes? xs = some x) : s.Offers x := by
    unfold Value.ofLanes? at made
    split at made <;> cases made <;> trivial
  unfold Binding.ofJson at h
  split at h
  · cases h; exact nofun
  · cases h; rintro x ⟨⟩; trivial
  · cases h; rintro x ⟨⟩; split <;> trivial
  · cases h; rintro x ⟨⟩; trivial
  · cases h
  · cases h
  · next items =>
    split at h
    · cases h
    · cases read : Binding.floats items with
      | error => rw [read] at h; cases h
      | ok xs =>
          rw [read] at h
          cases h
          exact fun x made => plain made

theorem step_bindJson {v : Json} (there : k < s.kernels.size) :
    s.Step (s.bindJson k name v).store := by
  unfold bindJson
  split
  · exact .stay
  · next read => exact step_bind there (offers_ofJson read)

end Store

theorem Operation.step_perform {run : Nat → Runner κ χ} {s : Store κ χ} {op : Operation κ χ}
    (names : op.Names s) : s.Step (op.perform run s).2 := by
  cases op with
  | newKernel => exact .newKernel
  | compile k source => exact .kernel names (.compiled source) s.subscriptions
  | compileLines k lines => exact .kernel names (.compiled _) s.subscriptions
  | bind k name v => exact Store.step_bind names.1 names.2
  | bindJson k name v => exact Store.step_bindJson names
  | subscribe k => exact .kernel names (.observed _) _
  | unsubscribe k n => exact .kernel names (.observed _) s.subscriptions
  | newNode n =>
    cases n with
    | kernel k policy =>
        simp only [perform, Store.addKernelNode]
        split
        · exact .stay
        · next added =>
          split at added
          · cases added
          · cases added; exact .newNode names
    | empty | buffer | transform | crop | canvas => exact .newNode names
  | newCanvas extent limits allocates =>
    simp only [perform]
    split
    · exact .stay
    · exact .newCanvas _
  | clear c colour =>
    simp only [perform, Store.clear]
    split
    · exact .stay
    · exact .drawn c _
  | composite c n origin =>
    simp only [perform, Store.composite]
    split
    · exact .stay
    · split
      · exact .stay
      · exact .drawn c _

/-- What holds at the start and in every step holds throughout. -/
theorem Reached.invariant {run : Nat → Runner κ χ} {Keeps : Store κ χ → Prop}
    (new : Keeps .new) (step : ∀ s s', Keeps s → s.Step s' → Keeps s')
    {ops : List (Operation κ χ)} {s : Store κ χ} (h : Reached run ops s) : Keeps s := by
  induction h with
  | new => exact new
  | step _ names ih => exact step _ _ ih (Operation.step_perform names)

end PixelKernel.Graph
