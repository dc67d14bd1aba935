import PixelKernel.Proofs.Compilation
import PixelKernel.Proofs.Graph.Acyclic

/-! # States of kernels

Program, log and bindings of a kernel change together. What they are follows from the source
that was compiled last, but for the values that are bound.
-/

namespace PixelKernel.Graph

open PixelKernel.Language (Argument Value Program Ty Diagnostic)

variable {κ χ : Type} [Scalar κ] [Scalar χ] [Narrow κ χ]

/-! ## Sources -/

/-- Source that an operation gives a kernel to compile. -/
def Operation.source? (k : Nat) : Operation κ χ → Option String
  | .compile j source => if j = k then some source else none
  | .compileLines j lines => if j = k then some ("\n".intercalate lines) else none
  | _ => none

/-- Source of a kernel's last compilation. -/
def lastSource? (k : Nat) (ops : List (Operation κ χ)) : Option String :=
  ops.findSome? (·.source? k)

/-! ## The invariant -/

/-- A value, if there is one, has the type that the argument declares. -/
def Fits (a : Argument) (v : Option Value) : Prop := ∀ w ∈ v, w.ty = a.ty.operand

/-- The kernel is as compiling the source has made it, with values bound since. -/
inductive Kernel.Follows (kernel : Kernel) : Option String → Prop where
  | fresh (program : kernel.program? = none) (log : kernel.log? = none)
      (bindings : kernel.bindings = []) : kernel.Follows none
  | failed {source d} (source_ : kernel.source = source)
      (rejected : Language.compile source = .error d) (program : kernel.program? = none)
      (log : kernel.log? = some [d.message]) (bindings : kernel.bindings = []) :
      kernel.Follows (some source)
  | ready {source p} (source_ : kernel.source = source)
      (compiled : Language.compile source = .ok p) (program : kernel.program? = some p)
      (log : kernel.log? = some []) (fits : List.Forall₂ Fits p.arguments kernel.bindings) :
      kernel.Follows (some source)

theorem forall₂_set_right {α β : Type} {R : α → β → Prop} {xs : List α} {ys : List β}
    (h : List.Forall₂ R xs ys) {i : Nat} {y : β} (fit : ∀ x, xs[i]? = some x → R x y) :
    List.Forall₂ R xs (ys.set i y) := by
  induction h generalizing i with
  | nil => exact .nil
  | cons first rest ih =>
      cases i with
      | zero => exact .cons (fit _ rfl) rest
      | succ i => exact .cons first (ih fit)

namespace Kernel

variable {kernel : Kernel} {last : Option String}

theorem follows_compile (kernel : Kernel) (source : String) :
    (kernel.compile source).Follows (some source) := by
  unfold compile
  cases made : Language.compile source with
  | error d => exact .failed rfl made rfl rfl rfl
  | ok p =>
      refine .ready rfl made rfl rfl ?_
      rw [List.forall₂_map_right_iff, List.forall₂_same]
      exact fun a _ => nofun

theorem Follows.observed (h : kernel.Follows last) (observers : List Nat) :
    { kernel with observers }.Follows last := by
  cases h with
  | fresh program log bindings => exact .fresh program log bindings
  | failed source_ rejected program log bindings =>
      exact .failed source_ rejected program log bindings
  | ready source_ compiled program log fits => exact .ready source_ compiled program log fits

theorem Follows.setBinding (h : kernel.Follows last) {i : Nat} {v : Option Value}
    (fit : ∀ a, (kernel.arguments?.getD [])[i]? = some a → Fits a v) :
    (kernel.setBinding i v).Follows last := by
  have empty (none_ : kernel.bindings = []) : (kernel.setBinding i v).bindings = [] := by
    simp [Kernel.setBinding, none_]
  cases h with
  | fresh program log bindings => exact .fresh program log (empty bindings)
  | failed source_ rejected program log bindings =>
      exact .failed source_ rejected program log (empty bindings)
  | ready source_ compiled program log fits =>
      simp only [arguments?, program, Option.map_some, Option.getD_some] at fit
      exact .ready source_ compiled program log (forall₂_set_right fits fit)

end Kernel

namespace Store

variable {s : Store κ χ} {k : Nat}

omit [Scalar κ] [Scalar χ] [Narrow κ χ]

/-- What is bound has the type of the argument. -/
theorem fits_of_placement {name : String} {v w : Option Value} {i : Nat}
    (placed : s.placement k name v = .ok (i, w)) (a : Argument)
    (there : ((s.kernel k).arguments?.getD [])[i]? = some a) : Fits a w := by
  obtain ⟨b, -, there', -, ⟨-, rfl⟩ | ⟨x, y, -, fits, rfl, -⟩⟩ := placement_eq_ok placed
  · exact nofun
  · rw [there] at there'
    cases there'
    rintro _ ⟨⟩
    exact Binding.coerce_ty fits

theorem follows_bind {last : Option String} {name : String} {v : Option Value}
    (there : k < s.kernels.size) {j : Nat} (h : (s.kernel j).Follows last) :
    ((s.bind k name v).store.kernel j).Follows last := by
  unfold bind
  split
  · exact h
  · next placed =>
    by_cases same : j = k
    · subst same
      rw [kernel_setKernel_self there]
      exact h.setBinding (fits_of_placement placed)
    · rwa [kernel_setKernel_ne same]

end Store

/-- Only compiling changes what a kernel follows. -/
theorem Operation.follows_perform (run : Nat → Runner κ χ) {s : Store κ χ} {op : Operation κ χ}
    (names : op.Names s) {k : Nat} {last : Option String} (h : (s.kernel k).Follows last) :
    ((op.perform run s).2.kernel k).Follows ((op.source? k).or last) := by
  have compiled (j : Nat) (there : j < s.kernels.size) (source : String) :
      ((s.compile j source).store.kernel k).Follows
        ((if j = k then some source else none).or last) := by
    split
    · next same =>
      subst same
      rw [Store.compile, Store.kernel_setKernel_self there]
      exact Kernel.follows_compile _ source
    · next other =>
      rw [Store.compile, Store.kernel_setKernel_ne (Ne.symm other)]
      exact h
  have observed (j : Nat) (there : j < s.kernels.size) (observers : List Nat) :
      ((s.setKernel j { s.kernel j with observers }).kernel k).Follows last := by
    by_cases same : k = j
    · subst same
      rw [Store.kernel_setKernel_self there]
      exact h.observed observers
    · rwa [Store.kernel_setKernel_ne same]
  cases op with
  | newKernel =>
    rw [perform, Store.kernel_addKernel]
    exact h
  | compile j source => exact compiled j names source
  | compileLines j lines => exact compiled j names _
  | bind j name v => exact Store.follows_bind names.1 h
  | bindJson j name v =>
    simp only [perform, Store.bindJson]
    split
    · exact h
    · exact Store.follows_bind names h
  | subscribe j => exact observed j names _
  | unsubscribe j n => exact observed j names _
  | newNode n =>
    cases n with
    | kernel j policy =>
        simp only [perform, Store.addKernelNode]
        split
        · exact h
        · next added =>
          split at added <;> cases added
          exact h
    | empty | buffer | transform | crop | canvas => exact h
  | newCanvas extent limits allocates =>
    simp only [perform]
    split <;> exact h
  | clear c colour =>
    simp only [perform, Store.clear]
    split <;> exact h
  | composite c n origin =>
    simp only [perform, Store.composite]
    split
    · exact h
    · split <;> exact h

/-- Every kernel follows the source that it was given last. -/
theorem Reached.follows {run : Nat → Runner κ χ} {ops : List (Operation κ χ)} {s : Store κ χ}
    (h : Reached run ops s) (k : Nat) : (s.kernel k).Follows (lastSource? k ops) := by
  induction h with
  | new => exact .fresh rfl rfl rfl
  | @step op ops s _ names ih =>
      have follows := Operation.follows_perform run names ih
      rw [lastSource?, List.findSome?_cons]
      cases source : op.source? k with
      | none => rwa [source] at follows
      | some text => rwa [source] at follows

/-! ## What a kernel shows of itself -/

/-- How program, log and bindings of a kernel hang together, given the source of its last
    compilation. -/
structure Kernel.Coherent (kernel : Kernel) (last : Option String) : Prop where
  fresh : kernel.log? = none ↔ last = none
  ready : kernel.log? = some [] ↔ kernel.program?.isSome
  failed : (∃ line, kernel.log? = some [line]) ↔
    ∃ source d, last = some source ∧ Language.compile source = .error d
  /-- A log that is not empty is one line that places the text of the failure. -/
  line : ∀ line lines, kernel.log? = some (line :: lines) → lines = [] ∧
    ∃ source d, last = some source ∧ Language.compile source = .error d ∧
      line = toString d.line ++ ":" ++ toString d.column ++ ": error: " ++ d.text
  program : ∀ p, kernel.program? = some p ↔
    ∃ source, last = some source ∧ Language.compile source = .ok p
  /-- One place for each declared argument. -/
  places : kernel.bindings.length = (kernel.arguments?.getD []).length
  noPlaces : kernel.program? = none → kernel.bindings = []
  names : ((kernel.arguments?.getD []).map (·.name)).Nodup
  typed : ∀ slot ∈ kernel.slots, ∀ v, slot.2 = some v → v.ty = slot.1.ty.operand
  valid : kernel.isValid = true ↔ kernel.program?.isSome ∧
    ∀ slot ∈ kernel.slots, slot.1.ty ≠ .sampler → slot.2.isSome

namespace Kernel

variable {kernel : Kernel} {last : Option String}

/-- A kernel can run if there is a program and nothing but samplers is unbound. -/
theorem isValid_iff : kernel.isValid = true ↔ kernel.program?.isSome ∧
    ∀ slot ∈ kernel.slots, slot.1.ty ≠ .sampler → slot.2.isSome := by
  unfold isValid validate
  cases kernel.program? with
  | none => simp [Except.isOk, Except.toBool]
  | some p =>
      have missing : kernel.missing? = none ↔
          ∀ slot ∈ kernel.slots, slot.1.ty ≠ .sampler → slot.2.isSome := by
        simp only [missing?, Option.map_eq_none_iff, List.find?_eq_none, Bool.and_eq_true,
          bne_iff_ne, not_and, ne_eq, Decidable.not_not, Option.isNone_iff_eq_none]
        refine forall₂_congr fun slot _ => ⟨fun all other => ?_, fun all unbound => ?_⟩
        · exact Option.isSome_iff_ne_none.2 fun unbound => other (all unbound)
        · by_contra other
          simpa [unbound] using all other
      rw [← missing]
      cases kernel.missing? <;> simp [Except.isOk, Except.toBool]

theorem Follows.coherent (h : kernel.Follows last) : kernel.Coherent last := by
  cases h with
  | fresh program log bindings =>
      exact {
        fresh := by simp [log]
        ready := by simp [log, program]
        failed := by simp [log]
        line := by simp [log]
        program := by simp [program]
        places := by simp [bindings, arguments?, program]
        noPlaces := fun _ => bindings
        names := by simp [arguments?, program]
        typed := by simp [slots, bindings]
        valid := isValid_iff }
  | @failed source d source_ rejected program log bindings =>
      exact {
        fresh := by simp [log]
        ready := by simp [log, program]
        failed := by simp [log, rejected]
        line := by
          intro line lines logged
          simp only [log, Option.some.injEq, List.cons.injEq] at logged
          exact ⟨logged.2.symm, source, d, rfl, rejected, logged.1.symm⟩
        program := by simp [program, rejected]
        places := by simp [bindings, arguments?, program]
        noPlaces := fun _ => bindings
        names := by simp [arguments?, program]
        typed := by simp [slots, bindings]
        valid := isValid_iff }
  | @ready source p source_ compiled program log fits =>
      exact {
        fresh := by simp [log]
        ready := by simp [log, program]
        failed := by simp [log, compiled]
        line := by simp [log]
        program := by simp [program, compiled]
        places := by simpa [arguments?, program] using fits.length_eq.symm
        noPlaces := by simp [program]
        names := by simpa [arguments?, program] using Language.distinct_of_compile compiled
        typed := by
          intro slot there v bound
          simp only [slots, arguments?, program, Option.map_some, Option.getD_some] at there
          exact List.forall₂_zip fits there v bound
        valid := isValid_iff }

end Kernel

/-! ## What operations do to kernels -/

/-- Only the binding of one argument of one kernel has changed. -/
structure Store.Rebound (s : Store κ χ) (k : Nat) (name : String) (v : Option Value)
    (s' : Store κ χ) : Prop where
  nodes : s'.nodes = s.nodes
  canvases : s'.canvases = s.canvases
  subscriptions : s'.subscriptions = s.subscriptions
  kernels : s'.kernels.size = s.kernels.size
  others : ∀ j, j ≠ k → s'.kernel j = s.kernel j
  program : (s'.kernel k).program? = (s.kernel k).program?
  log : (s'.kernel k).log? = (s.kernel k).log?
  source : (s'.kernel k).source = (s.kernel k).source
  observers : (s'.kernel k).observers = (s.kernel k).observers
  arguments : ∀ other, other ≠ name → (s'.kernel k).argument other = (s.kernel k).argument other
  /-- The value is bound as the argument's type makes it. -/
  argument : ∃ a w, a ∈ (s.kernel k).arguments?.getD [] ∧ a.name = name ∧
    (s'.kernel k).argument name = .ok w ∧
    ((v = none ∧ w = none) ∨ ∃ x y, v = some x ∧ Binding.coerce a x = .ok y ∧ w = some y)

/-- What can be said of operations on a kernel by what they answer. -/
structure Store.Answers (s : Store κ χ) (k : Nat) : Prop where
  refused : ∀ name v fault, (s.bind k name v).result = .error fault →
    (s.bind k name v).store = s ∧ (s.bind k name v).notices = []
  bound : ∀ name v, (s.bind k name v).result = .ok () → s.Rebound k name v (s.bind k name v).store
  refusedJson : ∀ name v fault, (s.bindJson k name v).result = .error fault →
    (s.bindJson k name v).store = s ∧ (s.bindJson k name v).notices = []
  boundJson : ∀ name v, (s.bindJson k name v).result = .ok () →
    ∃ w, Binding.ofJson v = .ok w ∧ s.Rebound k name w (s.bindJson k name v).store
  rejected : ∀ source fault, (s.compile k source).result = .error fault →
    ((s.compile k source).store.kernel k).program? = none ∧
      ((s.compile k source).store.kernel k).bindings = []
  compiled : ∀ source, (s.compile k source).result = .ok () →
    ∃ p, Language.compile source = .ok p ∧
      ((s.compile k source).store.kernel k).program? = some p ∧
      ∀ v ∈ ((s.compile k source).store.kernel k).bindings, v = none

namespace Kernel

variable {kernel : Kernel} {i : Nat} {v : Option Value} {name : String}

@[simp] theorem argumentIndex?_setBinding :
    (kernel.setBinding i v).argumentIndex? name = kernel.argumentIndex? name := rfl

@[simp] theorem bindings_setBinding :
    (kernel.setBinding i v).bindings = kernel.bindings.set i v := rfl

/-- A binding is found under the name of its argument. -/
theorem argument_setBinding (index : kernel.argumentIndex? name = some i)
    (inside : i < kernel.bindings.length) : (kernel.setBinding i v).argument name = .ok v := by
  simp [argument, index, inside]

/-- Bindings under other names stay. -/
theorem argument_setBinding_ne {other : String} (index : kernel.argumentIndex? name = some i)
    (ne : other ≠ name) : (kernel.setBinding i v).argument other = kernel.argument other := by
  simp only [argument, argumentIndex?_setBinding, bindings_setBinding]
  cases place : kernel.argumentIndex? other with
  | none => rfl
  | some j =>
      have apart : i ≠ j := by
        rintro rfl
        obtain ⟨a, there, rfl⟩ := argument_of_index index
        obtain ⟨b, there', rfl⟩ := argument_of_index place
        rw [there] at there'
        cases there'
        exact ne rfl
      simp [List.getElem?_set_ne apart]

end Kernel

namespace Store

variable {s : Store κ χ} {k : Nat} {name : String} {v : Option Value}

omit [Scalar κ] [Scalar χ] [Narrow κ χ]

theorem rebound_bind (there : k < s.kernels.size)
    (places : (s.kernel k).bindings.length = ((s.kernel k).arguments?.getD []).length)
    (ok : (s.bind k name v).result = .ok ()) : s.Rebound k name v (s.bind k name v).store := by
  unfold bind at ok ⊢
  split at ok
  · cases ok
  next i w placed =>
    obtain ⟨a, index, at_, named, value⟩ := placement_eq_ok placed
    have inside : i < (s.kernel k).bindings.length :=
      places ▸ (List.getElem?_eq_some_iff.1 at_).1
    have self : (s.setKernel k ((s.kernel k).setBinding i w)).kernel k =
        (s.kernel k).setBinding i w := kernel_setKernel_self there
    exact {
      nodes := rfl
      canvases := rfl
      subscriptions := rfl
      kernels := Array.size_setIfInBounds
      others := fun j other => kernel_setKernel_ne other
      program := by rw [self]; rfl
      log := by rw [self]; rfl
      source := by rw [self]; rfl
      observers := by rw [self]; rfl
      arguments := fun other ne => by rw [self, Kernel.argument_setBinding_ne index ne]
      argument := by
        refine ⟨a, w, List.mem_of_getElem? at_, named, ?_, ?_⟩
        · rw [self, Kernel.argument_setBinding index inside]
        · exact value.imp_right fun ⟨x, y, same, fits, kept, _⟩ => ⟨x, y, same, fits, kept⟩ }

theorem bind_refused {fault : Fault} (h : (s.bind k name v).result = .error fault) :
    (s.bind k name v).store = s ∧ (s.bind k name v).notices = [] := by
  unfold bind at h ⊢
  split at h
  · exact ⟨rfl, rfl⟩
  · cases h

theorem answers (there : k < s.kernels.size)
    (places : (s.kernel k).bindings.length = ((s.kernel k).arguments?.getD []).length) :
    s.Answers k where
  refused name v fault h := bind_refused h
  bound name v ok := rebound_bind there places ok
  refusedJson name v fault h := by
    unfold bindJson at h ⊢
    split at h
    · exact ⟨rfl, rfl⟩
    · exact bind_refused h
  boundJson name v ok := by
    unfold bindJson at ok ⊢
    cases read : Binding.ofJson v with
    | error => rw [read] at ok; cases ok
    | ok w => rw [read] at ok; exact ⟨w, rfl, rebound_bind there places ok⟩
  rejected source fault h := by
    simp only [compile, kernel_setKernel_self there] at h ⊢
    unfold Kernel.compile at h ⊢
    split at h
    · cases h
    · exact ⟨rfl, rfl⟩
  compiled source ok := by
    simp only [compile, kernel_setKernel_self there] at ok ⊢
    unfold Kernel.compile at ok ⊢
    cases made : Language.compile source with
    | error d => rw [made] at ok; cases ok
    | ok p => exact ⟨p, rfl, rfl, by simp⟩

end Store

/-- Throughout a history every kernel is coherent, and operations change of it only what they
    are for. -/
theorem Reached.kernels_coherent {run : Nat → Runner κ χ} {ops : List (Operation κ χ)}
    {s : Store κ χ} (h : Reached run ops s) (k : Nat) :
    (s.kernel k).Coherent (lastSource? k ops) ∧ (k < s.kernels.size → s.Answers k) :=
  have coherent := (h.follows k).coherent
  ⟨coherent, fun there => Store.answers there coherent.places⟩

/-- One kernel, compiled to copy its image. -/
def copying : List (Operation Float Float32) := [.compile 0 Language.copySource, .newKernel]

/-- The copying kernel, to which nothing is bound, and images. -/
def copyingInto (nodes : Array (Node Float Float32)) : Store Float Float32 where
  kernels := #[⟨Language.copySource, some Language.copyProgram, some [], [none], []⟩]
  nodes
  canvases := #[]
  subscriptions := 0

theorem reached_copying : Reached runForColour copying (copyingInto #[]) := by
  have compiled : Kernel.new.compile Language.copySource =
      ⟨Language.copySource, some Language.copyProgram, some [], [none], []⟩ := by
    simp only [Kernel.compile, Language.compile_copySource]
    rfl
  have empty : Reached runForColour [.newKernel] ⟨#[.new], #[], #[], 0⟩ := .step .new trivial
  have copies : Reached runForColour copying
      ⟨#[Kernel.new.compile Language.copySource], #[], #[], 0⟩ :=
    .step empty (show 0 < (#[Kernel.new] : Array Kernel).size by decide)
  rwa [compiled] at copies

theorem Reached.copyingImage {ops : List (Operation Float Float32)}
    {nodes : Array (Node Float Float32)} (h : Reached runForColour ops (copyingInto nodes)) :
    Reached runForColour (.newNode (.kernel 0 .infinite) :: ops)
      (copyingInto (nodes.push (.kernel 0 .infinite))) :=
  .step h (show 0 < (copyingInto nodes).kernels.size from Nat.one_pos)

theorem copying_coherent : Reached runForColour copying (copyingInto #[]) ∧
    ((copyingInto #[]).kernel 0).Coherent (some Language.copySource) ∧
    (copyingInto #[]).Answers 0 :=
  ⟨reached_copying, (reached_copying.kernels_coherent 0).1,
    (reached_copying.kernels_coherent 0).2 (by decide)⟩

end PixelKernel.Graph
