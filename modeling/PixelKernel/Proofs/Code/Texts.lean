import Mathlib.Data.List.Basic
import PixelKernel.Language.Code.Listing
import PixelKernel.Proofs.Code.Pool
import PixelKernel.Proofs.Syntax.Names

/-! # Texts in a listing

A text that is put together from pieces is taken apart again where a run of some characters ends: at
the end of a line, behind a word, behind a number. So words, numbers and constants can be told from
their texts, and lines from the text that they make up.
-/

namespace PixelKernel.Language

/-! ## Pieces of texts -/

/-- Two runs that end are the same if the wholes are. -/
theorem append_inj_of_all {α : Type} {P : α → Prop} {xs ys xs' ys' : List α} (hx : ∀ a ∈ xs, P a)
    (hy : ∀ a ∈ ys, P a) (hx' : ∀ a ∈ xs'.head?, ¬P a) (hy' : ∀ a ∈ ys'.head?, ¬P a)
    (h : xs ++ xs' = ys ++ ys') : xs = ys ∧ xs' = ys' := by
  rcases List.append_eq_append_iff.1 h with ⟨more, rfl, rfl⟩ | ⟨more, rfl, rfl⟩
  · cases more with
    | nil => exact ⟨(List.append_nil _).symm, rfl⟩
    | cons a more => exact absurd (hy a (by simp)) (hx' a rfl)
  · cases more with
    | nil => exact ⟨List.append_nil _, rfl⟩
    | cons a more => exact absurd (hx a (by simp)) (hy' a rfl)

section

variable {p : Char → Bool} {s t s' t' : String} {c : Char}

/-- All characters of a text satisfy `p`. -/
def MadeOf (p : Char → Bool) (s : String) : Prop := ∀ c ∈ s.toList, p c = true

/-- A run of `p` does not go on in the text. -/
def Stops (p : Char → Bool) (s : String) : Prop := ∀ c ∈ s.toList.head?, p c = false

theorem madeOf_all (h : s.toList.all p = true) : MadeOf p s := List.all_eq_true.1 h

theorem MadeOf.append (hs : MadeOf p s) (ht : MadeOf p t) : MadeOf p (s ++ t) := by
  unfold MadeOf
  rw [String.toList_append]
  exact List.forall_mem_append.2 ⟨hs, ht⟩

theorem stops_empty : Stops p "" := by
  rintro c ⟨⟩

theorem stops_append (head : s.toList.head? = some c) (stops : p c = false) : Stops p (s ++ t) := by
  intro d here
  rw [String.toList_append, List.head?_append, head] at here
  cases here
  exact stops

theorem text_inj (hs : MadeOf p s) (ht : MadeOf p t) (hs' : Stops p s') (ht' : Stops p t')
    (h : s ++ s' = t ++ t') : s = t ∧ s' = t' := by
  have chars : s.toList ++ s'.toList = t.toList ++ t'.toList := by
    rw [← String.toList_append, h, String.toList_append]
  have apart {c : Char} (h : p c = false) : ¬p c = true := by rw [h]; exact Bool.false_ne_true
  obtain ⟨front, back⟩ := append_inj_of_all hs ht (fun c here => apart (hs' c here))
    (fun c here => apart (ht' c here)) chars
  exact ⟨String.toList_injective front, String.toList_injective back⟩

end

theorem madeOf_toString (n : Nat) : MadeOf Char.isDigit (toString n) := by
  intro c mem
  rw [Nat.toString_eq_ofList_toDigits, String.toList_ofList] at mem
  exact Nat.isDigit_of_mem_toDigits (by decide) (by decide) mem

/-- A number ends where the digits end. -/
theorem number_inj {n m : Nat} {s t : String} (hs : Stops Char.isDigit s)
    (ht : Stops Char.isDigit t) (h : toString n ++ s = toString m ++ t) : n = m ∧ s = t := by
  obtain ⟨digits, rest⟩ := text_inj (madeOf_toString n) (madeOf_toString m) hs ht h
  exact ⟨Nat.repr_inj.1 digits, rest⟩

/-! ## Words -/

theorem Ty.madeOf_name (t : Ty) : MadeOf isWordChar t.name := by
  cases t <;> exact madeOf_all rfl

theorem Ty.name_inj {t u : Ty} (h : t.name = u.name) : t = u := by
  have spelled (t : Ty) : Ty.ofName? t.name = some t := by cases t <;> rfl
  exact Option.some.inj (by rw [← spelled t, h, spelled u])

theorem ArithOp.label_inj {a b : ArithOp} (h : a.label = b.label) : a = b := by
  revert h
  cases a <;> cases b <;> decide

theorem OrderOp.label_inj {a b : OrderOp} (h : a.label = b.label) : a = b := by
  revert h
  cases a <;> cases b <;> decide

theorem Selection.text_inj {l l' : Selection} (h : Selection.text l = Selection.text l') : l = l' :=
  List.map_injective_iff.2 (by decide) (String.ofList_injective h)

theorem Builtin.madeOf_name (f : Builtin) : MadeOf isWordChar f.name := by
  cases f <;> exact madeOf_all rfl

/-- Only the two functions named `atan` have one name. -/
theorem Builtin.name_inj {f g : Builtin} (h : f.name = g.name) :
    f = g ∨ f = .atan ∧ g = .atan2 ∨ f = .atan2 ∧ g = .atan := by
  have own : f ∈ Builtin.named f.name := by cases f <;> decide
  rw [h] at own
  cases g with
  | atan | atan2 =>
      rcases List.mem_pair.1 own with rfl | rfl <;> decide
  | _ => exact .inl (List.mem_singleton.1 own)

/-! ## Constants -/

/-- A character of an integer. -/
def isIntChar (c : Char) : Bool := c.isDigit || c = '-'

/-- The first character that is none of an integer. -/
def mark (s : String) : Option Char := s.toList.find? (!isIntChar ·)

section

variable {s t : String} {c : Char}

theorem madeOf_int (n : Nat) : MadeOf isIntChar (toString n) :=
  fun c mem => by rw [isIntChar, madeOf_toString n c mem, Bool.true_or]

theorem mark_of_int (h : MadeOf isIntChar s) : mark s = none :=
  List.find?_eq_none.2 fun c mem => by rw [h c mem]; exact Bool.false_ne_true

theorem mark_behind (h : MadeOf isIntChar s) : mark (s ++ t) = mark t := by
  have none_ : s.toList.find? (!isIntChar ·) = none := mark_of_int h
  rw [mark, String.toList_append, List.find?_append, none_]
  rfl

theorem mark_append (h : mark s = some c) : mark (s ++ t) = some c := by
  rw [mark] at h
  rw [mark, String.toList_append, List.find?_append, h]
  rfl

end

section

open Decimal

theorem madeOf_zeros (n : Nat) : MadeOf isIntChar (zeros n) := by
  intro c mem
  rw [zeros, String.toList_ofList] at mem
  rw [List.eq_of_mem_replicate mem]
  rfl

theorem mark_positional (s : Scaled) : mark (positional true s) = some '.' := by
  have digits := madeOf_int s.digits
  unfold positional
  dsimp only
  split
  · rw [mark_behind (digits.append (madeOf_zeros _))]
    rfl
  · split
    · have whole : MadeOf isIntChar (String.ofList ((toString s.digits).toList.take
          (((toString s.digits).length : Int) + s.exponent).toNat)) := by
        intro c mem
        rw [String.toList_ofList] at mem
        exact digits c (List.mem_of_mem_take mem)
      rw [String.append_assoc, mark_behind whole]
      exact mark_append rfl
    · rw [String.append_assoc]
      exact mark_append rfl

theorem mark_scientific (s : Scaled) :
    mark (scientific false s) = some '.' ∨ mark (scientific false s) = some 'e' := by
  have digits := madeOf_int s.digits
  unfold MadeOf at digits
  unfold scientific
  dsimp only
  generalize (toString s.digits).toList = text at digits ⊢
  have first {d : Char} (mem : d ∈ text) : MadeOf isIntChar (String.singleton d) := by
    intro c here
    rw [String.toList_singleton, List.mem_singleton] at here
    exact here ▸ digits d mem
  split
  · exact .inr rfl
  · rw [String.append_assoc, mark_behind (first (.head _))]
    exact .inr (mark_append rfl)
  · rw [String.append_assoc, String.append_assoc, String.append_assoc,
      mark_behind (first (.head _))]
    exact .inl (mark_append rfl)

/-- The text of a float is not that of an integer. -/
theorem mark_text (w : Binary.Width) (x : Binary) :
    ∃ c ∈ ['.', 'e', 'i', 'N'], mark (Decimal.text .tagged w x) = some c := by
  have minus : MadeOf isIntChar "-" := madeOf_all rfl
  cases x with
  | nan => exact ⟨'N', by decide, by rw [Decimal.text]; rfl⟩
  | infinite negative =>
      refine ⟨'i', by decide, ?_⟩
      rw [Decimal.text]
      cases negative <;> rfl
  | finite negative m e =>
      have body : ∃ c ∈ ['.', 'e', 'i', 'N'], mark (if m = 0 then "0.0" else
          Style.tagged.layout (shortest w Style.tagged.tie m e)) = some c := by
        split
        · exact ⟨'.', by decide, rfl⟩
        · unfold Style.layout
          dsimp only [Style.tagged]
          split
          · exact ⟨'.', by decide, mark_positional _⟩
          · rcases mark_scientific (shortest w .up m e) with h | h
            · exact ⟨'.', by decide, h⟩
            · exact ⟨'e', by decide, h⟩
      cases negative with
      | false => exact body
      | true =>
          obtain ⟨c, mem, here⟩ := body
          exact ⟨c, mem, (mark_behind minus).trans here⟩

end

/-- Text of a constant of a pool, or its index when there is none. -/
def constantText (v : Option Value) (i : Nat) : String :=
  match v with
  | some v => v.text
  | none => "#" ++ toString i

/-- What the text of a constant can have for its `mark`. -/
def marks : Option Value → List (Option Char)
  | none => [some '#']
  | some (.bool _) => [some 't', some 'f']
  | some (.int _) => [none]
  | some (.float _) => [some '.', some 'e', some 'i', some 'N']
  | some (.sampler _) => [some 's']
  | some (.vec2 ..) | some (.vec3 ..) | some (.vec4 ..) => [some 'v']

theorem mark_constantText (v : Option Value) (i : Nat) : mark (constantText v i) ∈ marks v := by
  cases v with
  | none => exact List.mem_singleton.2 (mark_append rfl)
  | some v =>
      cases v with
      | bool b =>
          change mark (toString b) ∈ [some 't', some 'f']
          cases b <;> decide
      | int n =>
          refine List.mem_singleton.2 (mark_of_int ?_)
          change MadeOf isIntChar (toString n.toInt)
          rw [Int.toString_eq_repr, Int.repr_eq_if]
          split
          · exact madeOf_int _
          · exact .append (madeOf_all rfl) (madeOf_int _)
      | float x =>
          obtain ⟨c, mem, here⟩ := mark_text Binary.single (Binary.ofFloat32 x)
          change mark (Decimal.text .tagged Binary.single (Binary.ofFloat32 x)) ∈ _
          rw [here]
          exact List.mem_map_of_mem mem
      | sampler => exact List.mem_singleton.2 (show mark "sampler" = some 's' from rfl)
      | vec2 | vec3 | vec4 => exact List.mem_singleton.2 (mark_append rfl)

/-- Vectors show their width. -/
theorem width_inj {a b : String} {xs ys : List Float32} (ha : MadeOf isWordChar a)
    (hb : MadeOf isWordChar b) (h : a ++ floatList xs = b ++ floatList ys) : a = b := by
  have ends (xs : List Float32) : Stops isWordChar (floatList xs) := by
    rw [floatList, String.append_assoc]
    exact stops_append rfl rfl
  exact (text_inj ha hb (ends xs) (ends ys) h).1

/-- Different constants have different texts if that is so for floats. -/
theorem constantText_inj {v w : Option Value} {i j : Nat} (hv : ∀ x ∈ v, Constant x)
    (hw : ∀ x ∈ w, Constant x) (floats : ∀ x y, v = some (.float x) → w = some (.float y) →
      Decimal.textFloat32 .tagged x = Decimal.textFloat32 .tagged y → x = y)
    (h : constantText v i = constantText w j) : v = w := by
  have hm := mark_constantText v i
  rw [h] at hm
  have hm' := mark_constantText w j
  generalize mark (constantText w j) = m at hm hm'
  cases v with
  | none =>
      cases w with
      | none => rfl
      | some w => cases hw w rfl <;> grind [marks]
  | some v =>
      cases w with
      | none => cases hv v rfl <;> grind [marks]
      | some w =>
          cases hv v rfl <;> cases hw w rfl
          case bool.bool b c =>
            change toString b = toString c at h
            revert h
            cases b <;> cases c <;> decide
          case int.int m _ n _ =>
            have same : m.toInt = n.toInt := Int.repr_inj.1 h
            rw [Int32.toInt_inj.1 same]
          case float.float x _ y _ => rw [floats x y rfl rfl h]
          case vec2.vec3 | vec2.vec4 | vec3.vec2 | vec3.vec4 | vec4.vec2 | vec4.vec3 =>
            exact absurd (width_inj (madeOf_all rfl) (madeOf_all rfl) h) (by decide)
          all_goals first
            | rfl
            | (clear h; grind [marks])

/-! ## Lines -/

/-- A text without line ends. -/
def OneLine (s : String) : Prop := MadeOf (· != '\n') s

section

variable {s t : String}

theorem MadeOf.mono {p q : Char → Bool} (h : MadeOf p s) (le : ∀ c, p c = true → q c = true) :
    MadeOf q s :=
  fun c mem => le c (h c mem)

theorem madeOf_ofList {p : Char → Bool} {cs : List Char} (h : ∀ c ∈ cs, p c = true) :
    MadeOf p (String.ofList cs) := by
  unfold MadeOf
  rwa [String.toList_ofList]

theorem MadeOf.intercalate {p : Char → Bool} {ss : List String} (hs : MadeOf p s)
    (h : ∀ t ∈ ss, MadeOf p t) : MadeOf p (s.intercalate ss) := by
  induction ss with
  | nil => exact madeOf_all rfl
  | cons t ss ih =>
      rw [List.forall_mem_cons] at h
      cases ss with
      | nil => rw [String.intercalate_singleton]; exact h.1
      | cons u ss =>
          rw [String.intercalate_cons_cons]
          exact (h.1.append hs).append (ih h.2)

theorem OneLine.of_intChars (h : MadeOf isIntChar s) : OneLine s := by
  refine h.mono fun c int => bne_iff_ne.2 ?_
  rintro rfl
  cases int

theorem OneLine.of_name (h : IsName s) : OneLine s := by
  refine MadeOf.mono h fun c word => bne_iff_ne.2 ?_
  rintro rfl
  cases word

theorem oneLine_nat (n : Nat) : OneLine (toString n) := .of_intChars (madeOf_int n)

theorem oneLine_int (n : Int) : OneLine (toString n) := by
  rw [Int.toString_eq_repr, Int.repr_eq_if]
  split
  · exact oneLine_nat _
  · exact .append (madeOf_all rfl) (oneLine_nat _)

end

section

open Decimal

theorem oneLine_positional (s : Scaled) : OneLine (positional true s) := by
  have digits := oneLine_nat s.digits
  have zeros (n : Nat) : OneLine (zeros n) := .of_intChars (madeOf_zeros n)
  unfold positional
  dsimp only
  split
  · exact (digits.append (zeros _)).append (madeOf_all rfl)
  · split
    · refine (MadeOf.append ?_ (madeOf_all rfl)).append ?_
      · exact madeOf_ofList fun c mem => digits c (List.mem_of_mem_take mem)
      · exact madeOf_ofList fun c mem => digits c (List.mem_of_mem_drop mem)
    · exact (MadeOf.append (madeOf_all rfl) (zeros _)).append digits

theorem oneLine_scientific (s : Scaled) : OneLine (scientific false s) := by
  have digits := oneLine_nat s.digits
  unfold OneLine MadeOf at digits
  unfold scientific
  dsimp only
  generalize (toString s.digits).toList = text at digits ⊢
  have power (n : Int) :
      OneLine ((if (false && decide (0 ≤ n)) = true then "+" else "") ++ toString n) := by
    rw [Bool.false_and, if_neg Bool.false_ne_true]
    exact .append (madeOf_all rfl) (oneLine_int n)
  have first {d : Char} (mem : d ∈ text) : OneLine (String.singleton d) := by
    intro c here
    rw [String.toList_singleton, List.mem_singleton] at here
    exact here ▸ digits d mem
  split
  · exact madeOf_all rfl
  · exact ((first (.head _)).append (madeOf_all rfl)).append (power _)
  · refine ((((first (.head _)).append (madeOf_all rfl)).append (madeOf_ofList ?_)).append
      (madeOf_all rfl)).append (power _)
    exact fun c mem => digits c (.tail _ mem)

theorem oneLine_text (w : Binary.Width) (x : Binary) : OneLine (Decimal.text .tagged w x) := by
  cases x with
  | nan => rw [Decimal.text]; exact madeOf_all rfl
  | infinite negative => rw [Decimal.text]; cases negative <;> exact madeOf_all rfl
  | finite negative m e =>
      have body : OneLine (if m = 0 then "0.0" else
          Style.tagged.layout (shortest w Style.tagged.tie m e)) := by
        split
        · exact madeOf_all rfl
        · unfold Style.layout
          dsimp only [Style.tagged]
          split
          · exact oneLine_positional _
          · exact oneLine_scientific _
      cases negative with
      | false => exact body
      | true => exact .append (madeOf_all rfl) body

end

theorem oneLine_floatList (xs : List Float32) : OneLine (floatList xs) := by
  refine (MadeOf.append (madeOf_all rfl) (.intercalate (madeOf_all rfl) ?_)).append (madeOf_all rfl)
  intro s mem
  obtain ⟨x, -, rfl⟩ := List.mem_map.1 mem
  exact oneLine_text _ _

theorem Value.oneLine_text (v : Value) : OneLine v.text := by
  cases v with
  | bool b => cases b <;> exact madeOf_all rfl
  | int n => exact oneLine_int _
  | float x => exact Language.oneLine_text _ _
  | vec2 | vec3 | vec4 => exact .append (madeOf_all rfl) (oneLine_floatList _)
  | sampler => exact show OneLine "sampler" from madeOf_all rfl

theorem oneLine_constantText (v : Option Value) (i : Nat) : OneLine (constantText v i) := by
  cases v with
  | none => exact .append (madeOf_all rfl) (oneLine_nat i)
  | some v => exact v.oneLine_text

/-! ## Lists of lines -/

theorem join_inj {xs ys : List String} (hx : ∀ s ∈ xs, OneLine s) (hy : ∀ s ∈ ys, OneLine s)
    (h : String.join (xs.map (· ++ "\n")) = String.join (ys.map (· ++ "\n"))) : xs = ys := by
  have ends (s : String) : Stops (· != '\n') ("\n" ++ s) := stops_append rfl rfl
  induction xs generalizing ys with
  | nil =>
      cases ys with
      | nil => rfl
      | cons y ys =>
          rw [List.map_cons, String.join_cons, String.append_assoc] at h
          have empty := String.append_eq_empty_iff.1 (String.append_eq_empty_iff.1 h.symm).2
          exact absurd empty.1 (by decide)
  | cons x xs ih =>
      cases ys with
      | nil =>
          rw [List.map_cons, String.join_cons, String.append_assoc] at h
          have empty := String.append_eq_empty_iff.1 (String.append_eq_empty_iff.1 h).2
          exact absurd empty.1 (by decide)
      | cons y ys =>
          rw [List.forall_mem_cons] at hx hy
          simp only [List.map_cons, String.join_cons, String.append_assoc] at h
          obtain ⟨rfl, more⟩ := text_inj hx.1 hy.1 (ends _) (ends _) h
          rw [ih hx.2 hy.2 ((String.append_right_inj _).1 more)]

/-- A heading that does not satisfy `P` over lines that do. -/
def Block {α : Type} (P : α → Prop) (b : List α) : Prop :=
  ∃ head rest, b = head :: rest ∧ ¬P head ∧ ∀ a ∈ rest, P a

theorem flatten_inj {α : Type} {P : α → Prop} {xs ys : List (List α)} (hx : ∀ b ∈ xs, Block P b)
    (hy : ∀ b ∈ ys, Block P b) (h : xs.flatten = ys.flatten) : xs = ys := by
  have ends {bs : List (List α)} (blocks : ∀ b ∈ bs, Block P b) : ∀ a ∈ bs.flatten.head?, ¬P a := by
    cases bs with
    | nil => rintro a ⟨⟩
    | cons b bs =>
        obtain ⟨head, rest, rfl, heads, -⟩ := blocks b (.head _)
        rintro a ⟨⟩
        exact heads
  induction xs generalizing ys with
  | nil =>
      cases ys with
      | nil => rfl
      | cons y ys =>
          obtain ⟨head, rest, rfl, -⟩ := hy y (.head _)
          cases h
  | cons x xs ih =>
      cases ys with
      | nil =>
          obtain ⟨head, rest, rfl, -⟩ := hx x (.head _)
          cases h
      | cons y ys =>
          rw [List.forall_mem_cons] at hx hy
          obtain ⟨⟨head, rest, rfl, -, lines⟩, blocks⟩ := hx
          obtain ⟨⟨head', rest', rfl, -, lines'⟩, blocks'⟩ := hy
          simp only [List.flatten_cons, List.cons_append, List.cons.injEq] at h
          obtain ⟨rfl, h⟩ := h
          obtain ⟨rfl, more⟩ := append_inj_of_all lines lines' (ends blocks) (ends blocks') h
          rw [ih blocks blocks' more]

end PixelKernel.Language
