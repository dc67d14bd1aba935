import PixelKernel.Proofs.Graph.Kernels
import PixelKernel.Proofs.Graph.Planning

/-! # Feedback is refused, and nothing else for its sake

A binding that would make a kernel read its own image is the only way in which a cycle could
come about, and it is refused exactly then. So all that walks the graph comes to an end, and
planning never meets a cycle.
-/

namespace PixelKernel.Graph

open PixelKernel.Language (Argument Value Ty)

/-- The kernel declares an argument of the name and the type. -/
def Kernel.Declares (kernel : Kernel) (name : String) (ty : Ty) : Prop :=
  ∃ a ∈ kernel.arguments?.getD [], a.name = name ∧ a.ty = ty

namespace Store

variable {κ χ : Type} [Scalar κ] {s : Store κ χ}

/-- The graph has no feedback, and everything that walks it comes to an end. -/
structure Feedforward (s : Store κ χ) : Prop where
  /-- Nothing that is bound to a kernel leads to an image of the kernel. -/
  apart : ∀ k, ∀ n ∈ (s.kernel k).boundSamplers, ¬ s.Needs n k
  /-- No node reads itself. -/
  acyclic : ∀ n c, c ∈ s.children n → ¬ s.Leads c n
  wellFounded : WellFounded fun c n => c ∈ s.children n
  /-- A sampler argument refuses exactly the nodes that lead to the kernel. -/
  binds : ∀ k name n, (s.kernel k).Declares name .sampler →
    ((∃ cause, (s.bind k name (some (.sampler (some n)))).result = .error (.invalidGraph cause)) ↔
      s.Needs n k) ∧
    ((s.bind k name (some (.sampler (some n)))).result = .ok () ↔ ¬ s.Needs n k)
  /-- The search for a kernel finds it exactly if some way leads to it. -/
  reaches : ∀ n k, s.reaches n k = true ↔ s.Needs n k
  /-- Extents are made of extents all the way down. -/
  extents : ∀ n, s.extent n = s.extentOf s.extent n
  noCycle : ∀ limits n, Plan.forImage s limits n ≠ .error (.invalidGraph .cycle)
  noCycleOfRecords : ∀ limits k, Plan.forRecords s limits k ≠ .error (.invalidGraph .cycle)
  /-- Planning ends by itself: with room for as many edges as there are nodes, it is never cut
      short. -/
  ends : ∀ limits n, s.nodes.size ≤ limits.depth → ∀ limit,
    Plan.forImage s limits n ≠ .error (.invalidGraph (.tooDeep limit))

omit [Scalar κ] in
/-- Names of arguments are distinct, so the argument that is found is the one that is meant. -/
theorem index_of_declares {kernel : Kernel} {name : String} {ty : Ty}
    (names : ((kernel.arguments?.getD []).map (·.name)).Nodup) (h : kernel.Declares name ty) :
    ∃ i a, kernel.argumentIndex? name = some i ∧ (kernel.arguments?.getD [])[i]? = some a ∧
      a.ty = ty := by
  obtain ⟨a, there, rfl, rfl⟩ := h
  cases compiled : kernel.arguments? with
  | none => rw [compiled] at there; cases there
  | some as =>
      rw [compiled, Option.getD_some] at there names
      cases index : as.findIdx? (·.name = a.name) with
      | none => simpa using List.findIdx?_eq_none_iff.1 index a there
      | some i =>
          obtain ⟨inside, named, -⟩ := List.findIdx?_eq_some_iff_getElem.1 index
          have same : as[i] = a := by
            refine List.inj_on_of_nodup_map names (List.getElem_mem inside) there ?_
            simpa using named
          refine ⟨i, a, by simp [Kernel.argumentIndex?, compiled, index], ?_, rfl⟩
          rw [Option.getD_some, List.getElem?_eq_getElem inside, same]

theorem Wired.without_feedback (wired : s.Wired)
    (names : ∀ k, (((s.kernel k).arguments?.getD []).map (·.name)).Nodup) : s.Feedforward where
  apart k n bound := wired.apart bound
  acyclic n c edge := wired.acyclic edge
  wellFounded := wired.wellFounded
  binds k name n declares := by
    obtain ⟨i, a, index, there, sampler⟩ := index_of_declares (names k) declares
    unfold bind
    rw [placement_sampler index there sampler]
    by_cases needs : s.Needs n k
    · simp [needs, reaches_iff.2 needs]
    · have free : s.reaches n k = false := by rwa [← Bool.not_eq_true, reaches_iff]
      simp [needs, free]
  reaches n k := reaches_iff
  extents := wired.extent_eq
  noCycle limits n cycle := nomatch wired.forImage_error cycle
  noCycleOfRecords limits k cycle := by
    have cases_ := wired.forRecords_cases limits k
    rw [cycle] at cases_
    rcases cases_ with _ | _ | _ | _ | ⟨-, refused⟩
    cases refused
  ends limits n room limit deep := by
    cases wired.forImage_error deep with
    | tooDeep way =>
        have short := wired.path_le way
        omega

end Store

/-- Whatever is done to a store, it stays without feedback. -/
theorem Reached.feedforward {κ χ : Type} [Scalar κ] [Scalar χ] [Narrow κ χ]
    {run : Nat → Runner κ χ} {ops : List (Operation κ χ)} {s : Store κ χ}
    (h : Reached run ops s) : s.Feedforward :=
  (Store.Wired.of_reached h).without_feedback fun k => (h.follows k).coherent.names

/-- The copying kernel is offered a crop of its own image, which it must not be given, and after that
    an empty image, which it is given. -/
theorem copying_feedforward : ∃ s, Reached runForColour
      ([.bind 0 "s" (some (.sampler (some 2))), .bind 0 "s" (some (.sampler (some 1))),
        .newNode .empty, .newNode (.crop 0 ⟨0, 0, 1, 1⟩),
        .newNode (.kernel 0 .infinite)] ++ copying) s ∧
    s.Feedforward ∧ s.children 0 = [2] ∧
    ∃ cause, (s.bind 0 "s" (some (.sampler (some 1)))).result = .error (.invalidGraph cause) := by
  have image := reached_copying.copyingImage
  have crop := image.step (show (Operation.newNode (.crop 0 ⟨0, 0, 1, 1⟩)).Names _ from
    (show 0 < 1 by decide))
  have empty := crop.step (show (Operation.newNode .empty).Names _ from trivial)
  have refused := empty.step (show (Operation.bind 0 "s" (some (.sampler (some 1)))).Names _ from
    ⟨(show 0 < 1 by decide), by rintro _ ⟨⟩; exact ⟨1, rfl, (show 1 < 3 by decide)⟩⟩)
  have bound := refused.step (show (Operation.bind 0 "s" (some (.sampler (some 2)))).Names _ from
    ⟨(show 0 < 1 by decide), by rintro _ ⟨⟩; exact ⟨2, rfl, (show 2 < 3 by decide)⟩⟩)
  have feedforward := bound.feedforward
  refine ⟨_, bound, feedforward, rfl, (feedforward.binds 0 "s" 1 ?_).1.2 ?_⟩
  · exact ⟨_, .head _, rfl, rfl⟩
  · exact ⟨0, .single (List.mem_singleton.2 rfl), rfl⟩

end PixelKernel.Graph
