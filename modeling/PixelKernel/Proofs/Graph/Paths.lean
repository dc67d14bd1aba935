import Mathlib.Data.Finset.Card
import Mathlib.Data.Finset.Range
import Mathlib.Logic.Relation
import PixelKernel.Graph.Store

/-! # Paths through the graph

Where reading leads from a node, edge by edge. Whether a kernel is reached is decided by a
search; the search finds exactly the nodes that paths lead to.
-/

namespace PixelKernel.Graph

open Relation

/-- The node that a moved or cropped one reads. -/
def Node.base? {κ χ : Type} : Node κ χ → Option Nat
  | transform child _ | crop child _ => some child
  | _ => none

namespace Store

variable {κ χ : Type} {s : Store κ χ}

/-- Reading the first node may read the second, directly or by way of others. -/
def Leads (s : Store κ χ) : Nat → Nat → Prop := ReflTransGen fun n c => c ∈ s.children n

/-- Reading the node may run the kernel. -/
def Needs (s : Store κ χ) (n k : Nat) : Prop := ∃ m, s.Leads n m ∧ s.isImageOf k m = true

/-- A way down from a node to another with the number of its edges. -/
inductive Path (s : Store κ χ) : Nat → Nat → Nat → Prop where
  | here (n : Nat) : Path s n 0 n
  | down {n c l m : Nat} : c ∈ s.children n → Path s c l m → Path s n (l + 1) m

/-! ## Edges -/

theorem isImageOf_iff {n k : Nat} : s.isImageOf k n = true ↔ ∃ p, s.node n = .kernel k p := by
  unfold isImageOf
  split
  next j p h => simp [h]
  next h => simp only [Bool.false_eq_true, false_iff, not_exists]; exact fun p => h k p

/-- An edge is that of a moved or cropped node or that of a kernel's image. -/
theorem mem_children_iff {n c : Nat} : c ∈ s.children n ↔
    (s.node n).base? = some c ∨ ∃ k, s.isImageOf k n = true ∧ c ∈ (s.kernel k).boundSamplers := by
  unfold children isImageOf
  cases s.node n with
  | kernel k p => simp [Node.base?]
  | transform | crop => simp [Node.base?, eq_comm]
  | empty | buffer | canvas => simp [Node.base?]

theorem mem_children_of_isImageOf {n k c : Nat} (image : s.isImageOf k n = true)
    (bound : c ∈ (s.kernel k).boundSamplers) : c ∈ s.children n :=
  mem_children_iff.2 (.inr ⟨k, image, bound⟩)

theorem children_of_size_le {n : Nat} (h : s.nodes.size ≤ n) : s.children n = [] := by
  have empty : s.node n = .empty := by simp [node, Array.getD, Nat.not_lt.2 h]
  simp [children, empty]

theorem lt_size_of_mem_children {n c : Nat} (h : c ∈ s.children n) : n < s.nodes.size := by
  by_contra outside
  simp [children_of_size_le (Nat.not_lt.1 outside)] at h

/-! ## Ways down -/

theorem Leads.needs {n m k : Nat} (h : s.Leads n m) (needs : s.Needs m k) : s.Needs n k := by
  obtain ⟨x, leads, image⟩ := needs
  exact ⟨x, h.trans leads, image⟩

theorem Path.leads {n l m : Nat} (h : s.Path n l m) : s.Leads n m := by
  induction h with
  | here => exact .refl
  | down edge _ ih => exact .head edge ih

/-! ## The search -/

/-- What a search adds to the nodes it has seen: it holds all children of whatever is added. -/
structure Searched (s : Store κ χ) (seen seen' : List Nat) : Prop where
  kept : seen ⊆ seen'
  closed : ∀ x ∈ seen', x ∉ seen → s.children x ⊆ seen'

theorem Searched.refl (seen : List Nat) : s.Searched seen seen :=
  ⟨fun _ => id, fun _ there fresh => absurd there fresh⟩

theorem Searched.trans {a b c : List Nat} (h : s.Searched a b) (h' : s.Searched b c) :
    s.Searched a c := by
  refine ⟨fun _ there => h'.kept (h.kept there), fun x there fresh => ?_⟩
  by_cases early : x ∈ b
  · exact fun _ child => h'.kept (h.closed x early fresh child)
  · exact h'.closed x there early

/-- Number of nodes that a search has yet to see. -/
def unseen (s : Store κ χ) (seen : List Nat) : Nat :=
  ((Finset.range s.nodes.size).filter (· ∉ seen)).card

theorem unseen_le {seen seen' : List Nat} (h : seen ⊆ seen') : s.unseen seen' ≤ s.unseen seen := by
  apply Finset.card_le_card
  intro x mem
  simp only [Finset.mem_filter] at mem ⊢
  exact ⟨mem.1, fun there => mem.2 (h there)⟩

theorem unseen_lt {seen : List Nat} {n : Nat} (inside : n < s.nodes.size) (fresh : n ∉ seen) :
    s.unseen (n :: seen) < s.unseen seen := by
  apply Finset.card_lt_card
  rw [Finset.ssubset_iff_of_subset]
  · exact ⟨n, by simp [inside, fresh], by simp⟩
  · intro x mem
    simp only [Finset.mem_filter, List.mem_cons, not_or] at mem ⊢
    exact ⟨mem.1, mem.2.2⟩

theorem unseen_nil_le : s.unseen [] ≤ s.nodes.size :=
  (Finset.card_filter_le _ _).trans (Finset.card_range _).le

theorem searched_foldl {f : List Nat → Nat → List Nat} {room : Nat}
    (search : ∀ seen c, s.unseen seen < room → s.Searched seen (f seen c) ∧ c ∈ f seen c)
    (cs : List Nat) : ∀ seen, s.unseen seen < room →
      s.Searched seen (cs.foldl f seen) ∧ cs ⊆ cs.foldl f seen := by
  induction cs with
  | nil =>
      intro seen _
      exact ⟨.refl seen, List.nil_subset _⟩
  | cons c cs ih =>
      intro seen few
      obtain ⟨first, found⟩ := search seen c few
      obtain ⟨rest, all⟩ := ih (f seen c) (lt_of_le_of_lt (unseen_le first.kept) few)
      refine ⟨first.trans rest, ?_⟩
      simp only [List.cons_subset, List.foldl_cons]
      exact ⟨rest.kept found, all⟩

/-- With room for all that is unseen, a search goes down every way. -/
theorem explore_searched : ∀ fuel seen n, s.unseen seen < fuel →
    s.Searched seen (s.explore fuel seen n) ∧ n ∈ s.explore fuel seen n := by
  intro fuel
  induction fuel with
  | zero => intro _ _ few; exact absurd few (Nat.not_lt_zero _)
  | succ fuel ih =>
      intro seen n few
      unfold explore
      by_cases there : n ∈ seen
      · rw [if_pos (by simpa using there)]
        exact ⟨.refl seen, there⟩
      rw [if_neg (by simpa using there)]
      by_cases inside : n < s.nodes.size
      · have fewer := unseen_lt inside there
        obtain ⟨rest, all⟩ := searched_foldl ih (s.children n) (n :: seen) (by omega)
        refine ⟨⟨fun x old => rest.kept (.tail _ old), ?_⟩, rest.kept (.head _)⟩
        intro x found fresh
        by_cases same : x = n
        · exact same ▸ all
        · exact rest.closed x found (by simp [same, fresh])
      · rw [children_of_size_le (Nat.not_lt.1 inside), List.foldl_nil]
        refine ⟨⟨fun x old => .tail _ old, ?_⟩, .head _⟩
        intro x found fresh
        rcases List.mem_cons.1 found with rfl | old
        · simp [children_of_size_le (Nat.not_lt.1 inside)]
        · exact absurd old fresh

theorem leads_of_mem_explore : ∀ fuel seen n, ∀ x ∈ s.explore fuel seen n,
    x ∈ seen ∨ s.Leads n x := by
  intro fuel
  induction fuel with
  | zero => intro seen n x found; exact .inl found
  | succ fuel ih =>
      intro seen n x found
      unfold explore at found
      split at found
      next => exact .inl found
      -- what is found stems from one of the children, or was there before
      have stems : ∀ cs ⊆ s.children n, ∀ seen', (∀ x ∈ seen', x ∈ seen ∨ s.Leads n x) →
          ∀ x ∈ cs.foldl (s.explore fuel) seen', x ∈ seen ∨ s.Leads n x := by
        intro cs
        induction cs with
        | nil => intro _ _ old; exact old
        | cons c cs ihc =>
            intro below seen' old
            rw [List.cons_subset] at below
            apply ihc below.2
            intro x there
            rcases ih seen' c x there with old' | leads
            · exact old x old'
            · exact .inr (.head below.1 leads)
      apply stems _ (fun _ => id) (n :: seen) _ x found
      intro x there
      rcases List.mem_cons.1 there with rfl | old
      · exact .inr .refl
      · exact .inl old

/-- A search finds what paths lead to, however much room it has beyond the number of nodes. -/
theorem mem_explore_iff {fuel n x : Nat} (room : s.nodes.size < fuel) :
    x ∈ s.explore fuel [] n ↔ s.Leads n x := by
  constructor
  · intro found
    exact (leads_of_mem_explore fuel [] n x found).resolve_left List.not_mem_nil
  · intro leads
    obtain ⟨searched, start⟩ := explore_searched fuel [] n (lt_of_le_of_lt unseen_nil_le room)
    induction leads with
    | refl => exact start
    | tail _ edge ih => exact searched.closed _ ih List.not_mem_nil edge

theorem reaches_iff {n k : Nat} : s.reaches n k = true ↔ s.Needs n k := by
  simp only [reaches, reachable, List.any_eq_true, mem_explore_iff (Nat.lt_succ_self _), Needs]

end Store
end PixelKernel.Graph
