import PixelKernel.Proofs.Graph.Copies

/-! # Bindings, each for itself

What is bound to a kernel has no say in what can be bound to it: whether a node leads to the kernel
is settled before the kernel's own bindings come into view. So an edit of a binding answers the same
whatever was edited before, and for each argument the last edit that succeeds decides.
-/

namespace PixelKernel.Graph

open Relation
open PixelKernel.Language (Argument Program Value)

variable {κ χ : Type}

/-- Something that is done to a binding of a kernel. -/
inductive Edit where
  /-- Binds an argument, or unbinds it. -/
  | bind (name : String) (v : Option Value)
  | bindJson (name : String) (v : Json)

namespace Edit

def name : Edit → String
  | bind name _ | bindJson name _ => name

def operation (k : Nat) : Edit → Operation κ χ
  | bind name v => .bind k name v
  | bindJson name v => .bindJson k name v

/-- The value that is offered, if the data stands for one. -/
def offered : Edit → Except Fault (Option Value)
  | bind _ v => .ok v
  | bindJson _ v => Binding.ofJson v

/-- The value that is offered, made to fit the argument. -/
def coerced (e : Edit) (a : Argument) : Except Fault (Option Value) :=
  match e.offered with
  | .error fault => .error fault
  | .ok none => .ok none
  | .ok (some v) => (Binding.coerce a v).map some

end Edit

namespace Store

/-- What an edit does to the bindings of a kernel. -/
def edit (s : Store κ χ) (k : Nat) : Edit → Change κ χ
  | .bind name v => s.bind k name v
  | .bindJson name v => s.bindJson k name v

/-- The store after edits of one kernel's bindings, those that fail among them. -/
def edited (s : Store κ χ) (k : Nat) (edits : List Edit) : Store κ χ :=
  edits.foldl (fun s e => (s.edit k e).store) s

/-- Place and value of the binding that an edit makes, if it succeeds. -/
def landing (s : Store κ χ) (k : Nat) (e : Edit) : Except Fault (Nat × Option Value) :=
  e.offered >>= s.placement k e.name

variable {s s' : Store κ χ} {k : Nat}

theorem edit_operation [Scalar κ] [Scalar χ] [Narrow κ χ] (run : Nat → Runner κ χ) (e : Edit) :
    (e.operation k).perform run s = ((s.edit k e).result, (s.edit k e).store) := by
  cases e <;> rfl

/-- An edit succeeds if its value finds a place, and puts it there. -/
theorem edit_eq (e : Edit) :
    (s.edit k e).result = (s.landing k e).map (fun _ => ()) ∧
      (s.edit k e).store = match s.landing k e with
        | .error _ => s
        | .ok (i, w) => s.setKernel k ((s.kernel k).setBinding i w) := by
  have placed (name : String) (v : Option Value) :
      (s.bind k name v).result = (s.placement k name v).map (fun _ => ()) ∧
        (s.bind k name v).store = match s.placement k name v with
          | .error _ => s
          | .ok (i, w) => s.setKernel k ((s.kernel k).setBinding i w) := by
    unfold bind
    cases s.placement k name v <;> exact ⟨rfl, rfl⟩
  cases e with
  | bind name v => exact placed name v
  | bindJson name v =>
      simp only [edit, bindJson, landing, Edit.offered]
      cases Binding.ofJson v with
      | error => exact ⟨rfl, rfl⟩
      | ok v => exact placed name v

theorem edit_ok_iff {e : Edit} : (s.edit k e).result = .ok () ↔ ∃ i w, s.landing k e = .ok (i, w) := by
  rw [(edit_eq e).1]
  cases s.landing k e with
  | error => simp [Except.map]
  | ok made => exact ⟨fun _ => ⟨made.1, made.2, rfl⟩, fun _ => rfl⟩

/-! ## The way to a kernel -/

/-- The stores differ in what is bound to the kernel, at most. -/
structure Rebinds (s : Store κ χ) (k : Nat) (s' : Store κ χ) : Prop where
  nodes : s'.nodes = s.nodes
  canvases : s'.canvases = s.canvases
  others : ∀ {j}, j ≠ k → s'.kernel j = s.kernel j
  program : (s'.kernel k).program? = (s.kernel k).program?

theorem Rebinds.symm (h : s.Rebinds k s') : s'.Rebinds k s :=
  ⟨h.nodes.symm, h.canvases.symm, fun other => (h.others other).symm, h.program.symm⟩

theorem Rebinds.node (h : s.Rebinds k s') (n : Nat) : s'.node n = s.node n := by
  simp only [Store.node, h.nodes]

theorem Rebinds.isImageOf (h : s.Rebinds k s') (j n : Nat) :
    s'.isImageOf j n = s.isImageOf j n := by
  simp only [Store.isImageOf, h.node]

/-- A node that is no image of the kernel reads what it has always read. -/
theorem Rebinds.children (h : s.Rebinds k s') {n : Nat} (other : s.isImageOf k n = false) :
    s'.children n = s.children n := by
  unfold Store.children
  unfold Store.isImageOf at other
  rw [h.node]
  cases node : s.node n with
  | kernel j policy =>
      rw [node] at other
      dsimp only
      rw [h.others (by simpa using other)]
  | _ => rfl

/-- The first image of the kernel on a way is reached without the kernel's bindings. -/
theorem Rebinds.needs (h : s.Rebinds k s') {n : Nat} (needs : s'.Needs n k) : s.Needs n k := by
  obtain ⟨m, way, image⟩ := needs
  induction way using ReflTransGen.head_induction_on with
  | refl => exact ⟨m, .refl, h.isImageOf k m ▸ image⟩
  | @head n c edge _ ih =>
      cases here : s.isImageOf k n with
      | true => exact ⟨n, .refl, here⟩
      | false =>
          rw [h.children here] at edge
          exact Leads.needs (.single edge) ih

theorem Rebinds.reaches (h : s.Rebinds k s') (n : Nat) : s'.reaches n k = s.reaches n k := by
  rw [Bool.eq_iff_iff, reaches_iff, reaches_iff]
  exact ⟨h.needs, h.symm.needs⟩

theorem Rebinds.placement (h : s.Rebinds k s') (name : String) (v : Option Value) :
    s'.placement k name v = s.placement k name v := by
  simp only [Store.placement, Kernel.argumentIndex?, Kernel.arguments?, h.program, h.reaches]

theorem Rebinds.landing (h : s.Rebinds k s') (e : Edit) : s'.landing k e = s.landing k e :=
  congrArg (e.offered >>= ·) (funext (h.placement e.name))

/-! ## Runs of edits -/

/-- The store with other bindings of a kernel. -/
def rebound (s : Store κ χ) (k : Nat) (bs : List (Option Value)) : Store κ χ :=
  s.setKernel k { s.kernel k with bindings := bs }

/-- What an edit makes of the bindings. -/
def landed (s : Store κ χ) (k : Nat) (bs : List (Option Value)) (e : Edit) : List (Option Value) :=
  match s.landing k e with
  | .error _ => bs
  | .ok (i, w) => bs.set i w

/-- An edit succeeds with a value that fits the argument of its name, for the argument's place. -/
theorem landing_eq_ok {e : Edit} {i : Nat} {w : Option Value} (h : s.landing k e = .ok (i, w)) :
    ∃ a, (s.kernel k).argumentIndex? e.name = some i ∧
      ((s.kernel k).arguments?.getD [])[i]? = some a ∧ a.name = e.name ∧ e.coerced a = .ok w := by
  unfold landing at h
  cases offered : e.offered with
  | error => rw [offered] at h; cases h
  | ok v =>
      rw [offered] at h
      obtain ⟨a, index, there, named, value⟩ := placement_eq_ok h
      refine ⟨a, index, there, named, ?_⟩
      obtain ⟨rfl, rfl⟩ | ⟨x, y, rfl, fits, rfl, -⟩ := value
      · simp only [Edit.coerced, offered]
      · simp only [Edit.coerced, offered, fits, Except.map]

section

variable {bs : List (Option Value)}

/-- Only a kernel that is there declares arguments. -/
theorem lt_size_of_landing {e : Edit} {i : Nat} {w : Option Value}
    (h : s.landing k e = .ok (i, w)) : k < s.kernels.size := by
  by_contra outside
  have none_ : s.kernel k = .new := by simp [Store.kernel, Array.getD, outside]
  obtain ⟨a, -, there, -⟩ := landing_eq_ok h
  rw [none_] at there
  cases there

theorem kernel_rebound (there : k < s.kernels.size) (bs : List (Option Value)) :
    (s.rebound k bs).kernel k = { s.kernel k with bindings := bs } :=
  kernel_setKernel_self there

theorem rebinds_rebound (s : Store κ χ) (k : Nat) (bs : List (Option Value)) :
    s.Rebinds k (s.rebound k bs) where
  nodes := rfl
  canvases := rfl
  others other := kernel_setKernel_ne other
  program := by
    by_cases there : k < s.kernels.size
    · rw [kernel_rebound there]
    · simp [rebound, setKernel, Store.kernel, Array.getD, there]

theorem rebound_self (s : Store κ χ) (k : Nat) : s.rebound k (s.kernel k).bindings = s := by
  have kernels : s.kernels.setIfInBounds k (s.kernel k) = s.kernels := by
    unfold Array.setIfInBounds
    split
    · next there =>
      rw [Store.kernel, Array.getD, dif_pos there]
      exact Array.set_getElem_self there
    · rfl
  exact congrArg (fun kernels => { s with kernels }) kernels

/-- Edits change the bindings one after the other, each as if there were no others. -/
theorem edited_rebound (edits : List Edit) :
    (s.rebound k bs).edited k edits = s.rebound k (edits.foldl (s.landed k) bs) := by
  induction edits generalizing bs with
  | nil => rfl
  | cons e edits ih =>
      have first : ((s.rebound k bs).edit k e).store = s.rebound k (s.landed k bs e) := by
        rw [(edit_eq e).2, (s.rebinds_rebound k bs).landing, landed]
        cases landing : s.landing k e with
        | error => rfl
        | ok made =>
            simp only [kernel_rebound (lt_size_of_landing landing), Kernel.setBinding]
            simp only [rebound, setKernel, Array.setIfInBounds_setIfInBounds]
      rw [edited, List.foldl_cons, first]
      exact ih

theorem edited_eq (edits : List Edit) :
    s.edited k edits = s.rebound k (edits.foldl (s.landed k) (s.kernel k).bindings) := by
  have same : (s.rebound k (s.kernel k).bindings).edited k edits = _ := edited_rebound edits
  rwa [rebound_self] at same

end

theorem rebinds_edited (s : Store κ χ) (k : Nat) (edits : List Edit) :
    s.Rebinds k (s.edited k edits) := by
  rw [edited_eq]
  exact s.rebinds_rebound k _

/-! ## The last edit -/

/-- The edit leaves the place alone, as it fails or is for another one. -/
def Misses (s : Store κ χ) (k i : Nat) (e : Edit) : Prop := ∀ w, s.landing k e ≠ .ok (i, w)

section

variable {e : Edit} {edits : List Edit} {bs bs' : List (Option Value)} {i : Nat} {name : String}

theorem misses_of_failed (index : (s.kernel k).argumentIndex? name = some i)
    (failed : e.name = name → (s.edit k e).result ≠ .ok ()) : s.Misses k i e := by
  intro w landed
  obtain ⟨a, -, there, named, -⟩ := landing_eq_ok landed
  obtain ⟨b, there', named'⟩ := Kernel.argument_of_index index
  rw [there] at there'
  cases there'
  exact failed (named.symm.trans named') (edit_ok_iff.2 ⟨i, w, landed⟩)

@[simp] theorem length_landed : (s.landed k bs e).length = bs.length := by
  unfold landed
  split <;> simp

theorem length_foldl_landed : (edits.foldl (s.landed k) bs).length = bs.length := by
  induction edits generalizing bs with
  | nil => rfl
  | cons e edits ih => rw [List.foldl_cons, ih, length_landed]

theorem landed_missed (misses : s.Misses k i e) : (s.landed k bs e)[i]? = bs[i]? := by
  unfold landed
  split
  · rfl
  · next j w landed =>
    have apart : j ≠ i := by
      rintro rfl
      exact misses w landed
    exact List.getElem?_set_ne apart

theorem landed_congr (same : bs[i]? = bs'[i]?) :
    (s.landed k bs e)[i]? = (s.landed k bs' e)[i]? := by
  unfold landed
  split
  · exact same
  · next j w _ =>
    by_cases here : j = i
    · subst here
      rw [List.getElem?_set_self', List.getElem?_set_self', same]
    · rw [List.getElem?_set_ne here, List.getElem?_set_ne here, same]

theorem foldl_landed_missed (misses : ∀ e ∈ edits, s.Misses k i e) :
    (edits.foldl (s.landed k) bs)[i]? = bs[i]? := by
  induction edits generalizing bs with
  | nil => rfl
  | cons e edits ih =>
      rw [List.foldl_cons, ih fun e' there => misses e' (.tail e there),
        landed_missed (misses e (.head edits))]

/-- Only edits under the name of a place matter there. -/
theorem foldl_landed_filter (edits : List Edit) (owned : ∀ e, e.name ≠ name → s.Misses k i e)
    (same : bs[i]? = bs'[i]?) : (edits.foldl (s.landed k) bs)[i]? =
      ((edits.filter (·.name = name)).foldl (s.landed k) bs')[i]? := by
  induction edits generalizing bs bs' with
  | nil => exact same
  | cons e edits ih =>
      by_cases here : e.name = name
      · rw [List.filter_cons_of_pos (by simpa using here), List.foldl_cons, List.foldl_cons]
        exact ih (landed_congr same)
      · rw [List.filter_cons_of_neg (by simpa using here), List.foldl_cons]
        exact ih ((landed_missed (owned e here)).trans same)

/-- Every place has a name such that edits under other names miss it. -/
theorem owned (s : Store κ χ) (k i : Nat) : ∃ name, ∀ e : Edit, e.name ≠ name → s.Misses k i e := by
  refine ⟨((((s.kernel k).arguments?.getD [])[i]?).map (·.name)).getD "", fun e other w landed => ?_⟩
  obtain ⟨a, -, there, named, -⟩ := landing_eq_ok landed
  exact other (by rw [there, ← named]; rfl)

theorem foldl_landed_eq {edits' : List Edit} (bs : List (Option Value))
    (same : ∀ name, edits.filter (·.name = name) = edits'.filter (·.name = name)) :
    edits.foldl (s.landed k) bs = edits'.foldl (s.landed k) bs := by
  refine List.ext_getElem? fun i => ?_
  obtain ⟨name, owned⟩ := s.owned k i
  rw [foldl_landed_filter edits owned rfl, same name, ← foldl_landed_filter edits' owned rfl]

end

/-- Of the edits of a kernel's bindings, the last that succeeds decides for each name. -/
structure LastWins (s : Store κ χ) (k : Nat) : Prop where
  /-- What an edit answers is not up to the edits before it. -/
  results : ∀ before e, ((s.edited k before).edit k e).result = (s.edit k e).result
  last : ∀ before e after, (s.edit k e).result = .ok () →
    (∀ e' ∈ after, e'.name = e.name → (s.edit k e').result ≠ .ok ()) →
    ∃ a ∈ (s.kernel k).arguments?.getD [], a.name = e.name ∧ ∃ w, e.coerced a = .ok w ∧
      ((s.edited k (before ++ e :: after)).kernel k).argument e.name = .ok w
  /-- What no edit has succeeded for stays as it was. -/
  kept : ∀ edits name, (∀ e ∈ edits, e.name = name → (s.edit k e).result ≠ .ok ()) →
    ((s.edited k edits).kernel k).argument name = (s.kernel k).argument name
  /-- Edits commute unless they are of one name. -/
  commute : ∀ edits edits',
    (∀ name, edits.filter (·.name = name) = edits'.filter (·.name = name)) →
    s.edited k edits = s.edited k edits'
  others : ∀ edits, s.Rebinds k (s.edited k edits)

theorem results_edited (before : List Edit) (e : Edit) :
    ((s.edited k before).edit k e).result = (s.edit k e).result := by
  rw [(edit_eq e).1, (edit_eq e).1, (s.rebinds_edited k before).landing]

/-- Edits leave the bindings that they land on. -/
theorem bindings_edited (edits : List Edit) :
    ((s.edited k edits).kernel k).bindings = edits.foldl (s.landed k) (s.kernel k).bindings := by
  rw [edited_eq]
  by_cases there : k < s.kernels.size
  · rw [kernel_rebound there]
  · have absent (bs) : (s.rebound k bs).kernel k = .new := by
      simp [rebound, setKernel, Store.kernel, Array.getD, there]
    have absent' : s.kernel k = .new := by simp [Store.kernel, Array.getD, there]
    rw [absent, absent']
    exact (List.length_eq_zero_iff.1 length_foldl_landed).symm

theorem argument_edited (edits : List Edit) (name : String) :
    ((s.edited k edits).kernel k).argument name =
      match (s.kernel k).argumentIndex? name with
      | none => .error (.unknownArgument name)
      | some i => .ok ((edits.foldl (s.landed k) (s.kernel k).bindings)[i]?).join := by
  have same : ((s.edited k edits).kernel k).argumentIndex? name =
      (s.kernel k).argumentIndex? name := by
    simp only [Kernel.argumentIndex?, Kernel.arguments?, (s.rebinds_edited k edits).program]
  rw [← same, ← bindings_edited]
  rfl

theorem lastWins (places : (s.kernel k).bindings.length =
    ((s.kernel k).arguments?.getD []).length) : s.LastWins k where
  results := results_edited
  last before e after succeeds fail := by
    obtain ⟨i, w, landing⟩ := edit_ok_iff.1 succeeds
    obtain ⟨a, index, there, named, fits⟩ := landing_eq_ok landing
    have inside : i < (before.foldl (s.landed k) (s.kernel k).bindings).length := by
      rw [length_foldl_landed, places]
      exact (List.getElem?_eq_some_iff.1 there).1
    have stays : ((before ++ e :: after).foldl (s.landed k) (s.kernel k).bindings)[i]? = some w := by
      rw [List.foldl_append, List.foldl_cons, foldl_landed_missed fun e' later =>
        misses_of_failed index (fail e' later), landed, landing]
      exact List.getElem?_set_self inside
    refine ⟨a, List.mem_of_getElem? there, named, w, fits, ?_⟩
    rw [argument_edited, index]
    exact congrArg (Except.ok ∘ Option.join) stays
  kept edits name fail := by
    rw [argument_edited, Kernel.argument]
    cases index : (s.kernel k).argumentIndex? name with
    | none => rfl
    | some i =>
        have stays : (edits.foldl (s.landed k) (s.kernel k).bindings)[i]? =
            (s.kernel k).bindings[i]? :=
          foldl_landed_missed fun e there => misses_of_failed index (fail e there)
        exact congrArg (Except.ok ∘ Option.join) stays
  commute edits edits' same := by
    rw [edited_eq, edited_eq, foldl_landed_eq _ same]
  others := s.rebinds_edited k

end Store

/-- Throughout a history, whatever is done to the bindings of a kernel, for each argument the last
    success counts. -/
theorem Reached.last_wins [Scalar κ] [Scalar χ] [Narrow κ χ] {run : Nat → Runner κ χ}
    {ops : List (Operation κ χ)} {s : Store κ χ} (h : Reached run ops s) (k : Nat) :
    s.LastWins k :=
  Store.lastWins (h.follows k).coherent.places

/-- The copying kernel takes an empty image, and refuses its own afterwards. -/
theorem twoImages_last_wins : ∃ ops s, Reached runForColour ops s ∧
    ((s.edited 0 [.bind "s" (some (.sampler (some 2))),
      .bind "s" (some (.sampler (some 0)))]).kernel 0).argument "s" =
        .ok (some (.sampler (some 2))) := by
  have names : (Operation.newNode .empty).Names twoImages := trivial
  have reached := reached_twoImages.step names
  obtain ⟨a, there, -, w, fits, bound⟩ := (reached.last_wins 0).last []
    (.bind "s" (some (.sampler (some 2)))) [.bind "s" (some (.sampler (some 0)))] rfl
    (by simp; decide)
  cases List.mem_singleton.1 there
  cases fits
  exact ⟨_, _, reached, bound⟩

end PixelKernel.Graph
