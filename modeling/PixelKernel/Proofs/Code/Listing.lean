import PixelKernel.Proofs.Code.Assignment
import PixelKernel.Proofs.Code.Texts

/-! # What a listing tells

A listing tells the functions of a program and their instructions. It does not tell where a constant
is in the pool, nor the types of local variables.
-/

namespace PixelKernel.Language

/-! ## Instructions -/

/-- The word that the text of an instruction begins with. -/
def Op.mnemonic : Op → String
  | const _ => "const"
  | load _ => "load"
  | store _ | storeLanes _ _ => "store"
  | select _ => "swizzle"
  | dup => "dup"
  | pop => "pop"
  | neg => "neg"
  | not => "not"
  | arith _ => "arith"
  | compare _ => "compare"
  | toFloat _ => "tofloat"
  | toInt => "toint"
  | toBool => "tobool"
  | construct _ _ => "construct"
  | builtin _ _ => "builtin"
  | call _ _ => "call"
  | jump _ => "jump"
  | jumpIfFalse _ => "jump_if_false"
  | jumpIfTrue _ => "jump_if_true"
  | ret => "return"
  | retVoid => "returnvoid"
  | missingReturn => "missingreturn"

def Program.callee (p : Program) (i : UInt16) : String :=
  ((p.functions[i.toNat]?).map (·.name)).getD "?"

/-- What stands behind the word. -/
def Op.operands (p : Program) (pc : Nat) : Op → String
  | const i => " " ++ constantText p.consts[i.toNat]? i.toNat
  | load slot => " %" ++ toString slot.toNat
  | store slot => " %" ++ (toString slot.toNat ++ "")
  | storeLanes slot lanes => " %" ++ (toString slot.toNat ++ ("." ++ Selection.text lanes))
  | select lanes => " ." ++ Selection.text lanes
  | arith op => "(" ++ (op.label ++ ")")
  | compare op => "(" ++ (op.label ++ ")")
  | toFloat depth => " \x7b depth: " ++ (toString depth.toNat ++ " \x7d")
  | construct width argc =>
    " \x7b width: " ++ (toString width.toNat ++ (", argc: " ++ (toString argc.toNat ++ " \x7d")))
  | builtin f argc => " " ++ (f.name ++ ("/" ++ toString argc.toNat))
  | call function argc => " " ++ (p.callee function ++ ("/" ++ toString argc.toNat))
  | jump offset | jumpIfFalse offset | jumpIfTrue offset => " " ++ jumpText pc offset
  | dup | pop | neg | not | toInt | toBool | ret | retVoid | missingReturn => ""

/-- What makes the listing of a program readable. -/
structure Program.Readable (p : Program) : Prop where
  consts : ∀ v ∈ p.consts, Constant v
  names : ∀ f ∈ p.functions, IsName f.name
  distinct : (p.functions.toList.map (·.name)).Nodup
  calls : ∀ f ∈ p.functions, ∀ o ∈ f.code, o.Calls p.functions.size
  entry : p.entry < p.functions.size

/-- Float constants of two programs have the same text only if they are the same. -/
def Program.TellsFloats (p q : Program) : Prop :=
  ∀ x y, .float x ∈ p.consts → .float y ∈ q.consts →
    Decimal.textFloat32 .tagged x = Decimal.textFloat32 .tagged y → x = y

/-- The same instruction, where a constant may have another place in the pool. -/
inductive Op.Matches (p q : Program) : Op → Op → Prop where
  | const {i j : UInt32} (same : p.consts[i.toNat]? = q.consts[j.toNat]?) :
      Matches p q (.const i) (.const j)
  | same {o : Op} (other : ∀ i, o ≠ .const i) : Matches p q o o

namespace Op

variable {p q : Program} {pc : Nat} {o o' : Op}

theorem text_eq : o.text p pc = o.mnemonic ++ o.operands p pc := by
  cases o <;> simp only [mnemonic, operands, ← String.append_assoc, String.reduceAppend,
    String.append_empty] <;> rfl

theorem madeOf_mnemonic (o : Op) : MadeOf isWordChar o.mnemonic := by
  cases o <;> simp only [mnemonic] <;> exact madeOf_all rfl

theorem stops_operands (o : Op) : Stops isWordChar (o.operands p pc) := by
  cases o with
  | dup | pop | neg | not | toInt | toBool | ret | retVoid | missingReturn => exact stops_empty
  | _ =>
      simp only [operands]
      exact stops_append rfl rfl

theorem jumpText_inj {a b : Int32} (h : jumpText pc a = jumpText pc b) : a = b := by
  have same : (pc : Int) + a.toInt = pc + b.toInt := Int.repr_inj.1 h
  exact Int32.toInt_inj.1 (by omega)

/-- A name and the number of arguments behind it. -/
theorem counted_inj {s t : String} {m n : UInt8} (hs : IsName s) (ht : IsName t)
    (h : s ++ ("/" ++ toString m.toNat) = t ++ ("/" ++ toString n.toNat)) : s = t ∧ m = n := by
  have slash (n : UInt8) : Stops isWordChar ("/" ++ toString n.toNat) := stops_append rfl rfl
  obtain ⟨name, count⟩ := text_inj hs ht (slash m) (slash n) h
  exact ⟨name, UInt8.toNat_inj.1 (Nat.repr_inj.1 ((String.append_right_inj _).1 count))⟩

/-- The two functions named `atan` take different numbers of arguments. -/
theorem builtin_inj {f g : Builtin} {m n : UInt8} {k : Nat} (hf : (builtin f m).Calls k)
    (hg : (builtin g n).Calls k) (h : (builtin f m).operands p pc = (builtin g n).operands q pc) :
    builtin f m = builtin g n := by
  obtain ⟨name, rfl⟩ := counted_inj f.madeOf_name g.madeOf_name ((String.append_right_inj _).1 h)
  rcases Builtin.name_inj name with rfl | ⟨rfl, rfl⟩ | ⟨rfl, rfl⟩
  · rfl
  · exact absurd ((hf.1 rfl).symm.trans (hg.2 rfl)) (by decide)
  · exact absurd ((hf.2 rfl).symm.trans (hg.1 rfl)) (by decide)

/-- A slot is stored into as a whole or in some lanes. -/
theorem store_inj {slot slot' : UInt16} {s s' : String} (hs : Stops Char.isDigit s)
    (hs' : Stops Char.isDigit s')
    (h : " %" ++ (toString slot.toNat ++ s) = " %" ++ (toString slot'.toNat ++ s')) :
    slot = slot' ∧ s = s' :=
  (number_inj hs hs' ((String.append_right_inj _).1 h)).imp_left UInt16.toNat_inj.1

section

variable (hp : p.Readable) (hq : q.Readable)
  (names : p.functions.toList.map (·.name) = q.functions.toList.map (·.name))

include hp hq names

/-- Names of functions tell their places. -/
theorem call_inj {i j : UInt16} {m n : UInt8} (hi : (call i m).Calls p.functions.size)
    (hj : (call j n).Calls q.functions.size)
    (h : (call i m).operands p pc = (call j n).operands q pc) : call i m = call j n := by
  have found {p : Program} (readable : p.Readable) {i : UInt16}
      (inside : i.toNat < p.functions.size) : IsName (p.callee i) ∧
        (p.functions.toList.map (·.name))[i.toNat]? = some (p.callee i) := by
    rw [Program.callee, Array.getElem?_eq_getElem inside, List.getElem?_map, Array.getElem?_toList,
      Array.getElem?_eq_getElem inside]
    exact ⟨readable.names _ (Array.getElem_mem inside), rfl⟩
  obtain ⟨named, here⟩ := found hp hi
  obtain ⟨named', here'⟩ := found hq hj
  obtain ⟨name, rfl⟩ := counted_inj named named' ((String.append_right_inj _).1 h)
  rw [← names, ← name, ← here] at here'
  have inside : i.toNat < (p.functions.toList.map (·.name)).length := by
    rw [List.length_map, Array.length_toList]
    exact hi
  have place := (List.getElem?_inj inside hp.distinct).1 here'.symm
  rw [UInt16.toNat_inj.1 place]

/-- All instructions but constants are told by their word and their operands. -/
theorem eq_of_operands (other : ∀ i, o ≠ .const i) (calls : o.Calls p.functions.size)
    (calls' : o'.Calls q.functions.size) (word : o.mnemonic = o'.mnemonic)
    (h : o.operands p pc = o'.operands q pc) : o = o' := by
  have behind {s t u : String} (h : s ++ t = s ++ u) : t = u := (String.append_right_inj s).1 h
  have before {s t u : String} (h : t ++ s = u ++ s) : t = u := (String.append_left_inj s).1 h
  have dot (lanes : Selection) : Stops Char.isDigit ("." ++ Selection.text lanes) :=
    stops_append rfl rfl
  cases o <;> cases o'
  case const.const => exact absurd rfl (other _)
  case load.load => rw [UInt16.toNat_inj.1 (Nat.repr_inj.1 (behind h))]
  case store.store => rw [(store_inj stops_empty stops_empty h).1]
  case storeLanes.storeLanes =>
    obtain ⟨rfl, lanes⟩ := store_inj (dot _) (dot _) h
    rw [Selection.text_inj (behind lanes)]
  case store.storeLanes =>
    have lanes := (store_inj stops_empty (dot _) h).2
    exact absurd (String.append_eq_empty_iff.1 lanes.symm).1 (by decide)
  case storeLanes.store =>
    have lanes := (store_inj (dot _) stops_empty h).2
    exact absurd (String.append_eq_empty_iff.1 lanes).1 (by decide)
  case select.select => rw [Selection.text_inj (behind h)]
  case arith.arith => rw [ArithOp.label_inj (before (behind h))]
  case compare.compare => rw [OrderOp.label_inj (before (behind h))]
  case toFloat.toFloat => rw [UInt8.toNat_inj.1 (Nat.repr_inj.1 (before (behind h)))]
  case construct.construct =>
    obtain ⟨width, counts⟩ := number_inj (stops_append rfl rfl) (stops_append rfl rfl) (behind h)
    rw [UInt8.toNat_inj.1 width, UInt8.toNat_inj.1 (Nat.repr_inj.1 (before (behind counts)))]
  case builtin.builtin => exact builtin_inj calls calls' h
  case call.call => exact call_inj hp hq names calls calls' h
  case jump.jump | jumpIfFalse.jumpIfFalse | jumpIfTrue.jumpIfTrue =>
    rw [jumpText_inj (behind h)]
  -- the rest are pairs of the same word, and pairs of different words
  all_goals first
    | rfl
    | simp [mnemonic] at word

/-- The text of an instruction tells the instruction. -/
theorem matches_of_text (tells : p.TellsFloats q) (calls : o.Calls p.functions.size)
    (calls' : o'.Calls q.functions.size) (h : o.text p pc = o'.text q pc) : Matches p q o o' := by
  rw [text_eq, text_eq] at h
  obtain ⟨word, rest⟩ := text_inj (madeOf_mnemonic o) (madeOf_mnemonic o') (stops_operands o)
    (stops_operands o') h
  by_cases other : ∃ i, o = .const i
  · obtain ⟨i, rfl⟩ := other
    cases o' with
    | const j =>
        refine .const (constantText_inj (fun v h => hp.consts v (Array.mem_of_getElem? h))
          (fun v h => hq.consts v (Array.mem_of_getElem? h)) (fun x y hx hy => ?_)
          ((String.append_right_inj _).1 rest))
        exact tells x y (Array.mem_of_getElem? hx) (Array.mem_of_getElem? hy)
    | _ => simp [mnemonic] at word
  · have other : ∀ i, o ≠ .const i := fun i same => other ⟨i, same⟩
    rw [← eq_of_operands hp hq names other calls calls' word rest]
    exact .same other

end

theorem oneLine_callee (hp : p.Readable) (i : UInt16) : OneLine (p.callee i) := by
  unfold Program.callee
  cases found : p.functions[i.toNat]? with
  | none => exact madeOf_all rfl
  | some f => exact .of_name (hp.names f (Array.mem_of_getElem? found))

theorem oneLine_selection (lanes : Selection) : OneLine (Selection.text lanes) := by
  refine madeOf_ofList fun c mem => ?_
  obtain ⟨i, -, rfl⟩ := List.mem_map.1 mem
  exact (show ∀ i, (laneName i != '\n') = true by decide) i

theorem oneLine_operands (hp : p.Readable) (o : Op) : OneLine (o.operands p pc) := by
  cases o with
  | const i => exact .append (madeOf_all rfl) (oneLine_constantText _ _)
  | load => exact .append (madeOf_all rfl) (oneLine_nat _)
  | store => exact .append (madeOf_all rfl) ((oneLine_nat _).append (madeOf_all rfl))
  | storeLanes =>
      exact .append (madeOf_all rfl) ((oneLine_nat _).append
        (.append (madeOf_all rfl) (oneLine_selection _)))
  | select => exact .append (madeOf_all rfl) (oneLine_selection _)
  | arith op =>
      refine .append (madeOf_all rfl) (.append ?_ (madeOf_all rfl))
      cases op <;> exact madeOf_all rfl
  | compare op =>
      refine .append (madeOf_all rfl) (.append ?_ (madeOf_all rfl))
      cases op <;> exact madeOf_all rfl
  | toFloat => exact .append (madeOf_all rfl) ((oneLine_nat _).append (madeOf_all rfl))
  | construct =>
      exact .append (madeOf_all rfl) ((oneLine_nat _).append (.append (madeOf_all rfl)
        ((oneLine_nat _).append (madeOf_all rfl))))
  | builtin f =>
      exact .append (madeOf_all rfl) ((OneLine.of_name f.madeOf_name).append
        (.append (madeOf_all rfl) (oneLine_nat _)))
  | call =>
      exact .append (madeOf_all rfl) ((oneLine_callee hp _).append
        (.append (madeOf_all rfl) (oneLine_nat _)))
  | jump | jumpIfFalse | jumpIfTrue => exact .append (madeOf_all rfl) (oneLine_int _)
  | dup | pop | neg | not | toInt | toBool | ret | retVoid | missingReturn =>
      exact madeOf_all rfl

end Op

/-! ## Headings -/

/-- What stands in front of the result type, if anything does. -/
def tagText : Option Target → String
  | none => ""
  | some t => t.tag

/-- How a function is marked in the listing. -/
def Program.tagAt (p : Program) (index : Nat) : Option Target :=
  if index = p.entry then some p.target else none

/-- The names of types behind the first one. -/
def laterNames : List Ty → String
  | [] => ""
  | t :: ts => ", " ++ ", ".intercalate ((t :: ts).map Ty.name)

def Function.heading (p : Program) (index : Nat) (f : Function) : String :=
  tagText (p.tagAt index) ++ (f.ret.name ++ (" " ++ (f.name ++ ("(" ++
    (", ".intercalate (f.params.map Ty.name) ++ (") locals=" ++ toString f.locals.size))))))

theorem intercalate_names (t : Ty) (ts : List Ty) :
    ", ".intercalate ((t :: ts).map Ty.name) = t.name ++ laterNames ts := by
  cases ts with
  | nil => rw [laterNames, String.append_empty]; exact String.intercalate_singleton
  | cons u us => rw [laterNames, ← String.append_assoc]; exact String.intercalate_cons_cons

theorem stops_laterNames (ts : List Ty) : Stops isWordChar (laterNames ts) := by
  cases ts with
  | nil => exact stops_empty
  | cons t ts => exact stops_append rfl rfl

theorem laterNames_inj {ts us : List Ty} (h : laterNames ts = laterNames us) : ts = us := by
  induction ts generalizing us with
  | nil =>
      cases us with
      | nil => rfl
      | cons u us => exact absurd (String.append_eq_empty_iff.1 h.symm).1 (by decide)
  | cons t ts ih =>
      cases us with
      | nil => exact absurd (String.append_eq_empty_iff.1 h).1 (by decide)
      | cons u us =>
          have names := (String.append_right_inj _).1 h
          rw [intercalate_names, intercalate_names] at names
          obtain ⟨first, later⟩ := text_inj t.madeOf_name u.madeOf_name (stops_laterNames ts)
            (stops_laterNames us) names
          rw [Ty.name_inj first, ih later]

theorem params_inj {ts us : List Ty}
    (h : ", ".intercalate (ts.map Ty.name) = ", ".intercalate (us.map Ty.name)) : ts = us := by
  have more {t : Ty} {ts : List Ty} : ", ".intercalate ((t :: ts).map Ty.name) ≠ "" := by
    rw [intercalate_names]
    intro empty
    have name := (String.append_eq_empty_iff.1 empty).1
    cases t <;> simp [Ty.name] at name
  cases ts with
  | nil =>
      cases us with
      | nil => rfl
      | cons u us => exact absurd h.symm more
  | cons t ts =>
      cases us with
      | nil => exact absurd h more
      | cons u us => exact laterNames_inj (congrArg (", " ++ ·) h)

theorem tagText_inj {a b : Option Target} {t u : Ty} {s s' : String}
    (h : tagText a ++ (t.name ++ s) = tagText b ++ (u.name ++ s')) : a = b := by
  have head {s s' : String} {c d : Char} (hc : s.toList.head? = some c)
      (hd : s'.toList.head? = some d) {t t' : String} (h : s ++ t = s' ++ t') : c = d := by
    have same := congrArg (·.toList.head?) h
    simpa only [String.toList_append, List.head?_append, hc, hd, Option.some_or,
      Option.some.injEq] using same
  have type (t : Ty) : ∃ c, t.name.toList.head? = some c ∧ c ≠ 'k' ∧ c ≠ '_' := by
    cases t <;> exact ⟨_, rfl, by decide, by decide⟩
  obtain ⟨c, first, notKernel, notReduce⟩ := type t
  obtain ⟨d, first', notKernel', notReduce'⟩ := type u
  have reduce (s : String) : "kernel __reduce " ++ s = "kernel " ++ ("__reduce " ++ s) := by
    rw [← String.append_assoc]
    rfl
  rcases a with _ | _ | _ <;> rcases b with _ | _ | _
  case none.none | some.normal.some.normal | some.reduce.some.reduce => rfl
  case none.some.normal | none.some.reduce =>
    rw [tagText, String.empty_append] at h
    exact absurd (head first rfl h) notKernel
  case some.normal.none | some.reduce.none =>
    exact absurd (head rfl first' ((h.trans (String.empty_append)))) notKernel'.symm
  case some.normal.some.reduce =>
    exact absurd (head first rfl ((String.append_right_inj _).1 (h.trans (reduce _)))) notReduce
  case some.reduce.some.normal =>
    exact absurd (head rfl first' ((String.append_right_inj _).1 ((reduce _).symm.trans h)))
      notReduce'.symm

/-- What the heading of a function says, apart from the function's mark. -/
structure SameHead (f g : Function) : Prop where
  name : f.name = g.name
  params : f.params = g.params
  ret : f.ret = g.ret
  slots : f.locals.size = g.locals.size

theorem heading_inj {p q : Program} {i : Nat} {f g : Function} (hf : IsName f.name)
    (hg : IsName g.name) (h : f.heading p i = g.heading q i) :
    p.tagAt i = q.tagAt i ∧ SameHead f g := by
  have tag := tagText_inj h
  unfold Function.heading at h
  rw [tag] at h
  obtain ⟨ret, h⟩ := text_inj f.ret.madeOf_name g.ret.madeOf_name (stops_append rfl rfl)
    (stops_append rfl rfl) ((String.append_right_inj _).1 h)
  obtain ⟨name, h⟩ := text_inj hf hg (stops_append rfl rfl) (stops_append rfl rfl)
    ((String.append_right_inj _).1 h)
  have inside (ts : List Ty) : MadeOf (· != ')') (", ".intercalate (ts.map Ty.name)) := by
    refine .intercalate (madeOf_all rfl) fun s mem => ?_
    obtain ⟨t, -, rfl⟩ := List.mem_map.1 mem
    cases t <;> exact madeOf_all rfl
  obtain ⟨params, h⟩ := text_inj (inside _) (inside _) (stops_append rfl rfl) (stops_append rfl rfl)
    ((String.append_right_inj _).1 h)
  exact ⟨tag, name, params_inj params, Ty.name_inj ret,
    Nat.repr_inj.1 ((String.append_right_inj _).1 h)⟩

/-! ## Programs -/

/-- The line of an instruction. -/
def Op.line (p : Program) (pc : Nat) (o : Op) : String := "  " ++ indexText pc ++ " " ++ o.text p pc

theorem Function.lines_eq (p : Program) (i : Nat) (f : Function) :
    f.lines p i = f.heading p i :: f.code.toList.mapIdx (Op.line p) := by
  have head : (if i = p.entry then p.target.tag else "") = tagText (p.tagAt i) := by
    unfold Program.tagAt
    split <;> rfl
  unfold Function.lines
  refine congrArg (· :: f.code.toList.mapIdx (Op.line p)) ?_
  simp only [head, Function.heading, String.append_assoc]

section

variable {p q : Program}

theorem indented_line (pc : Nat) (o : Op) : (o.line p pc).toList.head? = some ' ' := by
  rw [Op.line, String.append_assoc, String.append_assoc, String.toList_append]
  rfl

theorem oneLine_line (hp : p.Readable) (pc : Nat) (o : Op) : OneLine (o.line p pc) := by
  have index : OneLine (indexText pc) := by
    unfold indexText
    exact (OneLine.of_intChars (madeOf_zeros _)).append (oneLine_nat pc)
  rw [Op.line, Op.text_eq]
  exact ((MadeOf.append (madeOf_all rfl) index).append (madeOf_all rfl)).append
    ((OneLine.of_name o.madeOf_mnemonic).append (Op.oneLine_operands hp o))

theorem oneLine_heading (i : Nat) {f : Function} (name : IsName f.name) :
    OneLine (f.heading p i) := by
  have tag (t : Option Target) : OneLine (tagText t) := by
    rcases t with _ | _ | _ <;> exact madeOf_all rfl
  have params : OneLine (", ".intercalate (f.params.map Ty.name)) := by
    refine .intercalate (madeOf_all rfl) fun s mem => ?_
    obtain ⟨t, -, rfl⟩ := List.mem_map.1 mem
    exact OneLine.of_name t.madeOf_name
  exact (tag _).append ((OneLine.of_name f.ret.madeOf_name).append (.append (madeOf_all rfl)
    ((OneLine.of_name name).append (.append (madeOf_all rfl) (params.append
      (.append (madeOf_all rfl) (oneLine_nat _)))))))

theorem not_indented_heading (i : Nat) (f : Function) :
    (f.heading p i).toList.head? ≠ some ' ' := by
  have type : ∃ c, f.ret.name.toList.head? = some c ∧ c ≠ ' ' := by
    cases f.ret <;> exact ⟨_, rfl, by decide⟩
  obtain ⟨c, first, solid⟩ := type
  rw [Function.heading, String.toList_append, String.toList_append, List.head?_append,
    List.head?_append, first]
  rcases p.tagAt i with _ | _ | _
  · exact fun h => solid (Option.some.inj h)
  · exact (by decide : some 'k' ≠ some ' ')
  · exact (by decide : some 'k' ≠ some ' ')

theorem block_lines (i : Nat) (f : Function) :
    Block (fun s => s.toList.head? = some ' ') (f.lines p i) := by
  refine ⟨_, _, f.lines_eq p i, not_indented_heading i f, fun s mem => ?_⟩
  obtain ⟨pc, inside, rfl⟩ := List.mem_mapIdx.1 mem
  exact indented_line pc _

theorem oneLine_lines (hp : p.Readable) (i : Nat) {f : Function} (mem : f ∈ p.functions) :
    ∀ s ∈ f.lines p i, OneLine s := by
  rw [f.lines_eq, List.forall_mem_cons]
  refine ⟨oneLine_heading i (hp.names f mem), fun s mem => ?_⟩
  obtain ⟨pc, inside, rfl⟩ := List.mem_mapIdx.1 mem
  exact oneLine_line hp pc _

/-- The functions of one listing have the same lines. -/
theorem lines_of_listing (hp : p.Readable) (hq : q.Readable) (h : p.listing = q.listing) :
    p.functions.toList.mapIdx (Function.lines p) =
      q.functions.toList.mapIdx (Function.lines q) := by
  have lines {p : Program} (hp : p.Readable) :
      ∀ s ∈ (p.functions.toList.mapIdx (Function.lines p)).flatten, OneLine s := by
    intro s mem
    obtain ⟨block, mem, there⟩ := List.mem_flatten.1 mem
    obtain ⟨i, inside, rfl⟩ := List.mem_mapIdx.1 mem
    exact oneLine_lines hp i (Array.mem_toList_iff.1 (List.getElem_mem inside)) s there
  have blocks (p : Program) : ∀ b ∈ p.functions.toList.mapIdx (Function.lines p),
      Block (fun s => s.toList.head? = some ' ') b := by
    intro b mem
    obtain ⟨i, inside, rfl⟩ := List.mem_mapIdx.1 mem
    exact block_lines i _
  exact flatten_inj (blocks p) (blocks q) (join_inj (lines hp) (lines hq) h)

/-- Functions with the same head and instructions that match. -/
structure Function.Matches (p q : Program) (f g : Function) : Prop extends SameHead f g where
  code : ∀ pc : Nat, Option.Rel (Op.Matches p q) f.code[pc]? g.code[pc]?

/-- Programs that differ only in the order of constants, in the types of local variables and in what
    is told of arguments. -/
structure Program.Matches (p q : Program) : Prop where
  entry : p.entry = q.entry
  target : p.target = q.target
  functions : ∀ i : Nat, Option.Rel (Function.Matches p q) p.functions[i]? q.functions[i]?

theorem rel_of_map_eq {α β γ : Type} {R : α → β → Prop} {f : α → γ} {g : β → γ} {a : Option α}
    {b : Option β} (h : a.map f = b.map g)
    (rel : ∀ x y, a = some x → b = some y → f x = g y → R x y) : Option.Rel R a b := by
  cases a with
  | none =>
      cases b with
      | none => exact .none
      | some b => cases h
  | some a =>
      cases b with
      | none => cases h
      | some b => exact .some (rel a b rfl rfl (Option.some.inj h))

/-- A listing tells the program. -/
theorem matches_of_listing (hp : p.Readable) (hq : q.Readable) (tells : p.TellsFloats q)
    (h : p.listing = q.listing) : p.Matches q := by
  have lines (i : Nat) :
      p.functions[i]?.map (Function.lines p i) = q.functions[i]?.map (Function.lines q i) := by
    have same := congrArg (·[i]?) (lines_of_listing hp hq h)
    simpa only [List.getElem?_mapIdx, Array.getElem?_toList] using same
  have heads {i : Nat} {f g : Function} (hf : p.functions[i]? = some f)
      (hg : q.functions[i]? = some g) : p.tagAt i = q.tagAt i ∧ SameHead f g ∧
        f.code.toList.mapIdx (Op.line p) = g.code.toList.mapIdx (Op.line q) := by
    have same := lines i
    rw [hf, hg, Option.map_some, Option.map_some, Option.some.injEq, f.lines_eq, g.lines_eq,
      List.cons.injEq] at same
    obtain ⟨tag, head⟩ := heading_inj (hp.names f (Array.mem_of_getElem? hf))
      (hq.names g (Array.mem_of_getElem? hg)) same.1
    exact ⟨tag, head, same.2⟩
  have names : p.functions.toList.map (·.name) = q.functions.toList.map (·.name) := by
    refine List.ext_getElem? fun i => ?_
    rw [List.getElem?_map, List.getElem?_map, Array.getElem?_toList, Array.getElem?_toList]
    have same := lines i
    cases hf : p.functions[i]? with
    | none =>
        rw [hf] at same
        rw [Option.map_eq_none_iff.1 same.symm]
    | some f =>
        rw [hf] at same
        obtain ⟨g, hg, -⟩ := Option.map_eq_some_iff.1 same.symm
        rw [hg]
        exact congrArg some (heads hf hg).2.1.name
  have entry : q.tagAt p.entry = some p.target := by
    have here := Array.getElem?_eq_getElem hp.entry
    have same := lines p.entry
    rw [here] at same
    obtain ⟨g, hg, -⟩ := Option.map_eq_some_iff.1 same.symm
    rw [← (heads here hg).1, Program.tagAt, if_pos rfl]
  obtain ⟨place, target⟩ := (Option.ite_none_right_eq_some ..).1 entry
  refine ⟨place, (Option.some.inj target).symm, fun i => rel_of_map_eq (lines i)
    fun f g hf hg _ => ?_⟩
  obtain ⟨-, head, code⟩ := heads hf hg
  refine ⟨head, fun pc => rel_of_map_eq (f := Op.line p pc) (g := Op.line q pc) ?_
    fun o o' ho ho' same => ?_⟩
  · have same := congrArg (·[pc]?) code
    simpa only [List.getElem?_mapIdx, Array.getElem?_toList] using same
  · exact Op.matches_of_text hp hq names tells
      (hp.calls f (Array.mem_of_getElem? hf) o (Array.mem_of_getElem? ho))
      (hq.calls g (Array.mem_of_getElem? hg) o' (Array.mem_of_getElem? ho'))
      ((String.append_right_inj _).1 same)

end

theorem Op.text_congr {p q : Program} (consts : p.consts = q.consts)
    (names : ∀ i : Nat, p.functions[i]?.map (·.name) = q.functions[i]?.map (·.name)) (pc : Nat)
    (o : Op) : o.text p pc = o.text q pc := by
  rw [text_eq, text_eq]
  cases o with
  | const i => simp only [operands, consts]
  | call i => simp only [operands, Program.callee, names]
  | _ => rfl

/-- The types of local variables are not listed. -/
theorem listing_congr {p q : Program} (consts : p.consts = q.consts) (entry : p.entry = q.entry)
    (target : p.target = q.target) (functions : ∀ i : Nat,
      Option.Rel (fun f g => SameHead f g ∧ f.code = g.code) p.functions[i]? q.functions[i]?) :
    p.listing = q.listing := by
  have names (i : Nat) : p.functions[i]?.map (·.name) = q.functions[i]?.map (·.name) := by
    have same := functions i
    generalize p.functions[i]? = x at same ⊢
    generalize q.functions[i]? = y at same ⊢
    cases same with
    | none => rfl
    | some same => exact congrArg some same.1.name
  have line : Op.line p = Op.line q := by
    funext pc o
    rw [Op.line, Op.line, Op.text_congr consts names]
  have lines (i : Nat) :
      p.functions[i]?.map (Function.lines p i) = q.functions[i]?.map (Function.lines q i) := by
    have same := functions i
    generalize p.functions[i]? = x at same ⊢
    generalize q.functions[i]? = y at same ⊢
    cases same with
    | none => rfl
    | some same =>
        obtain ⟨head, code⟩ := same
        rw [Option.map_some, Option.map_some, Function.lines_eq, Function.lines_eq, code, line,
          Function.heading, Function.heading, Program.tagAt, Program.tagAt, entry, target, head.name,
          head.params, head.ret, head.slots]
  have blocks : p.functions.toList.mapIdx (Function.lines p) =
      q.functions.toList.mapIdx (Function.lines q) := by
    refine List.ext_getElem? fun i => ?_
    rw [List.getElem?_mapIdx, List.getElem?_mapIdx, Array.getElem?_toList, Array.getElem?_toList,
      lines]
  rw [Program.listing, Program.listing, blocks]

/-! ## Compiled programs -/

namespace Lower

theorem isSome_find? {lib : Library} {g : Function} (mem : g ∈ lib.functions) :
    (lib.find? g.name).isSome = true := by
  have there : (lib.functions.toList.findIdx? (·.name == g.name)).isSome = true := by
    rw [List.findIdx?_isSome, List.any_eq_true]
    exact ⟨g, Array.mem_toList_iff.2 mem, beq_self_eq_true _⟩
  obtain ⟨i, place⟩ := Option.isSome_iff_exists.1 there
  obtain ⟨x, here, -⟩ := find?_of_findIdx? place
  rw [Array.getElem?_toList] at here
  unfold Library.find?
  rw [places_eq_findIdx?, place]
  simp [here]

/-- A function that is lowered has a new name. -/
theorem new_of_function {lib : Library} {consts : Array Value} {f : FunctionDef}
    {r : Function × Array Value} (h : function lib consts f = .ok r) :
    r.1.name = f.name ∧ ∀ g ∈ lib.functions, g.name ≠ f.name := by
  obtain ⟨g, consts'⟩ := r
  obtain ⟨head, -, -, -, -, -, -, rfl⟩ := function_ran h
  refine ⟨rfl, fun g mem same => ?_⟩
  have known := isSome_find? mem
  unfold checkHead at head
  rw [← same, if_pos known] at head
  cases head

theorem names_of_functionsFrom {fs : List FunctionDef} {lib lib' : Library}
    {consts consts' : Array Value} (h : functionsFrom lib consts fs = .ok (lib', consts'))
    (distinct : (lib.functions.toList.map (·.name)).Nodup) :
    (lib'.functions.toList.map (·.name)).Nodup ∧ lib'.functions.toList.map (·.name) =
      lib.functions.toList.map (·.name) ++ fs.map (·.name) := by
  induction fs generalizing lib consts with
  | nil =>
      cases h
      exact ⟨distinct, (List.append_nil _).symm⟩
  | cons f rest ih =>
      unfold functionsFrom at h
      cases made : function lib consts f with
      | error => rw [made] at h; cases h
      | ok r =>
          rw [made] at h
          obtain ⟨name, new⟩ := new_of_function made
          have names : (lib.add r.1).functions.toList.map (·.name) =
              lib.functions.toList.map (·.name) ++ [f.name] := by
            simp [Library.add, name]
          have distinct' : ((lib.add r.1).functions.toList.map (·.name)).Nodup := by
            rw [names, List.nodup_append]
            refine ⟨distinct, List.nodup_singleton _, ?_⟩
            rintro _ mem _ last rfl
            obtain ⟨g, there, same⟩ := List.mem_map.1 mem
            exact new g (Array.mem_toList_iff.1 there) (same.trans (List.mem_singleton.1 last))
          obtain ⟨nodup, all⟩ := ih h distinct'
          exact ⟨nodup, by rw [all, names, List.append_assoc]; rfl⟩

end Lower

theorem readable_of_compile {source : String} {p : Program} (h : compile source = .ok p) :
    p.Readable := by
  have calls := fun f mem => (tracks_of_compile h f mem).1
  obtain ⟨module, parsed, lowered⟩ := lowerModule_of_compile h
  obtain ⟨k, target, lib, consts, tagged, made, rfl⟩ := lowerModule_eq_ok lowered
  obtain ⟨gs, functions, ok⟩ :=
    Lower.functionsFrom_eq_ok [] .empty (floats_parseModule parsed) .nil made
  obtain ⟨distinct, names⟩ := Lower.names_of_functionsFrom made List.nodup_nil
  obtain ⟨-, i, place, there, -⟩ := Lower.first_kernel (Lower.theKernel_eq_ok tagged)
  refine ⟨ok.pool.constant, fun f mem => ?_, distinct, calls, ?_⟩
  · have mem := List.mem_map_of_mem (f := (·.name)) (Array.mem_toList_iff.2 mem)
    rw [names, Library.empty, List.map_nil, List.nil_append] at mem
    obtain ⟨d, there, same⟩ := List.mem_map.1 mem
    rw [← same]
    exact isName_of_parseModule parsed d there
  · have inside := (List.getElem?_eq_some_iff.1 there).1
    have count := congrArg List.length names
    simp only [List.length_map, Library.empty, List.map_nil, List.nil_append,
      Array.length_toList] at count
    rw [place]
    simpa only [Option.getD_some, count] using inside

end PixelKernel.Language
