import Mathlib.Data.List.TakeWhile
import PixelKernel.Proofs.Code.Listing
import PixelKernel.Proofs.Code.Positions
import PixelKernel.Proofs.Syntax.Names

/-! # Texts written token by token

A text may be written down as the kinds of its tokens, each spelled behind a blank. The lexer reads
these kinds, so such a text is compiled to what its tokens are parsed as and lowered to, and no
position has to be counted.
-/

namespace PixelKernel.Language

open Token (Kind)

/-! ## Spellings -/

variable {c : Char} {cs : List Char} {k : Kind} {ks : List Kind}

/-- A token that takes all of a text is spelled by it. -/
theorem TokenAt.spells {n : Nat} (found : TokenAt c cs k n) (solid : isBlank c = false)
    (token : ¬StartsComment c cs) (whole : n = cs.length + 1) : Spells k (c :: cs) := by
  obtain ⟨w, split, -, spells⟩ := found.exists_spells solid token
  rw [whole, List.drop_succ_cons, List.drop_length, List.append_nil] at split
  rwa [split]

theorem isBlank_of_isWordStart (h : isWordStart c = true) : isBlank c = false := by
  cases blank : isBlank c with
  | false => rfl
  | true =>
      have inside := isWordChar_of_isBlank blank
      rw [isWordChar_of_isWordStart h] at inside
      cases inside

/-- A run of letters, digits and underscores is spelled by itself. -/
theorem spells_run (starts : isWordStart c = true) (letter : startsNumber (c :: cs) = false)
    (inside : cs.all isWordChar = true) : Spells (.ofWord (String.ofList (c :: cs))) (c :: cs) := by
  have whole : cs.takeWhile isWordChar = cs :=
    List.takeWhile_eq_self_iff.2 (List.all_eq_true.1 inside)
  have found := TokenAt.word letter starts
  rw [whole] at found
  refine found.spells (isBlank_of_isWordStart starts) ?_ rfl
  rintro ⟨rfl, -⟩
  cases starts

theorem spells_symbol (s : Symbol) : Spells (.sym s) s.spelling.toList := by
  cases s
  case trueWord | falseWord | kernelWord | reduceWord | staticWord | constWord | ifWord | elseWord |
      forWord | whileWord | doWord | breakWord | continueWord | returnWord =>
    exact spells_run rfl rfl rfl
  case plusPlus | minusMinus | plusAssign | minusAssign | starAssign | slashAssign | eqEq | ne |
      le | ge | andAnd | orOr =>
    exact (TokenAt.pair rfl rfl rfl).spells rfl (by unfold StartsComment; decide) rfl
  all_goals exact (TokenAt.single rfl rfl rfl rfl).spells rfl (by unfold StartsComment; decide) rfl

/-! ## Spaced texts -/

/-- How words and symbols are spelled. -/
def Token.Kind.spelling : Kind → List Char
  | .word name => name.toList
  | .sym s => s.spelling.toList
  | _ => []

/-- The tokens of some items, each of which comes with its own. -/
def written {α : Type} (xs : List (α × List Kind)) : List Kind := xs.flatMap (·.2)

/-- The text with these tokens, a blank in front of each. -/
def spaced (ks : List Kind) : String := String.ofList (ks.flatMap fun k => ' ' :: k.spelling)

/-- Tokens of these kinds, without places. -/
def bareTokens (ks : List Kind) : List Token := ks.map fun k => ⟨k, 0, 0⟩

theorem written_cons {α : Type} {x : α × List Kind} {xs : List (α × List Kind)} :
    written (x :: xs) = x.2 ++ written xs := List.flatMap_cons

theorem forall_mem_written {α : Type} {P : Kind → Prop} {xs : List (α × List Kind)} :
    (∀ k ∈ written xs, P k) ↔ ∀ x ∈ xs, ∀ k ∈ x.2, P k := List.forall_mem_flatMap

theorem bareTokens_append {ks' : List Kind} :
    bareTokens (ks ++ ks') = bareTokens ks ++ bareTokens ks' := List.map_append

theorem kinds_bareTokens : (bareTokens ks).map (·.kind) = ks := by
  rw [bareTokens, List.map_map]
  exact List.map_id _

theorem exists_tokensFrom_spaced (spelled : ∀ k ∈ ks, Spells k k.spelling) (pos : Nat) :
    ∃ ts, tokensFrom pos (ks.flatMap fun k => ' ' :: k.spelling) = .ok ts ∧
      ts.map (·.kind) = ks ++ [.stop] := by
  induction ks generalizing pos with
  | nil => exact ⟨_, tokensFrom_nil, rfl⟩
  | cons k ks ih =>
      rw [List.forall_mem_cons] at spelled
      have clear : Clear (ks.flatMap fun k => ' ' :: k.spelling) := by
        cases ks with
        | nil => exact clear_nil
        | cons => rintro c ⟨⟩; rfl
      obtain ⟨ts, read, kinds⟩ := ih spelled.2 (pos + byteCount [' '] + byteCount k.spelling)
      have first : tokensFrom (pos + byteCount [' ']) (k.spelling ++ _) = _ :=
        tokensFrom_token spelled.1 clear
      rw [read] at first
      refine ⟨_, (tokensFrom_skip (.blank rfl : Skipped _ [' '])).trans first, ?_⟩
      rw [List.map_cons, kinds]
      rfl

theorem exists_tokens_spaced (spelled : ∀ k ∈ ks, Spells k k.spelling) :
    ∃ ts, tokens (spaced ks) = .ok ts ∧ ts.map (·.kind) = ks ++ [.stop] := by
  unfold tokens spaced
  rw [String.toList_ofList]
  exact exists_tokensFrom_spaced spelled 0

/-! ## Parsing -/

theorem bind_of_ok {σ ε α β : Type} {m : StateT σ (Except ε) α} {f : α → StateT σ (Except ε) β}
    {s s' : σ} {a : α} (h : m s = .ok (a, s')) : (m >>= f) s = f a s' := by
  change (m s >>= _) = _
  rw [h]
  rfl

namespace Parser

variable {α : Type} {ts rest bound : List Token}

/-- The parser makes `a` of these tokens, whatever follows them. -/
def Consumes (p : Parser α) (ks : List Kind) (a : α) : Prop :=
  ∀ rest, p (bareTokens ks ++ rest) = .ok (a, rest)

/-- The tokens begin with one that neither closes a block nor ends the text. -/
def GoesOn (ks : List Kind) : Prop := ∃ k more, ks = k :: more ∧ k ≠ .sym .rbrace ∧ k ≠ .stop

theorem accept_eq_false {s : Symbol} (other : kindOf ts ≠ .sym s) :
    accept s ts = .ok (false, ts) := by
  unfold accept
  refine (bind_of_ok (rfl : peek ts = .ok (kindOf ts, ts))).trans ?_
  rw [if_neg other]
  rfl

theorem GoesOn.kindOf_ne {ks : List Kind} {k : Kind} (h : GoesOn ks)
    (ends : k = .sym .rbrace ∨ k = .stop) : kindOf (bareTokens ks ++ rest) ≠ k := by
  obtain ⟨first, more, rfl, inside, goes⟩ := h
  obtain rfl | rfl := ends
  · exact inside
  · exact goes

/-- Each item has a token at least. -/
theorem length_lt_written {xs : List (α × List Kind)} (each : ∀ x ∈ xs, GoesOn x.2) :
    xs.length < (bareTokens (written xs ++ [k])).length := by
  rw [bareTokens, List.length_map, List.length_append, List.length_singleton, Nat.lt_add_one_iff]
  induction xs with
  | nil => exact Nat.zero_le _
  | cons x xs ih =>
      obtain ⟨⟨first, more, begins, -⟩, others⟩ := List.forall_mem_cons.1 each
      rw [written_cons, begins, List.cons_append, List.length_cons, List.length_cons,
        List.length_append]
      exact Nat.succ_le_succ ((ih others).trans (Nat.le_add_left ..))

/-- Statements one behind the other, up to the end of their block. -/
theorem blockRest_eq_ok {stmt : Parser Stmt} {xs : List (Stmt × List Kind)}
    (each : ∀ x ∈ xs, Consumes stmt x.2 x.1 ∧ GoesOn x.2) (enough : xs.length < bound.length) :
    blockRest stmt bound (bareTokens (written xs ++ [.sym .rbrace]) ++ rest) =
      .ok (xs.map (·.1), rest) := by
  induction xs generalizing bound with
  | nil =>
      cases bound with
      | nil => cases enough
      | cons => rfl
  | cons x xs ih =>
      obtain ⟨⟨consumes, goesOn⟩, others⟩ := List.forall_mem_cons.1 each
      cases bound with
      | nil => cases enough
      | cons t bound =>
          rw [written_cons, List.append_assoc, bareTokens_append, List.append_assoc, blockRest]
          refine (bind_of_ok (accept_eq_false (goesOn.kindOf_ne (.inl rfl)))).trans ?_
          refine (bind_of_ok (rfl : peek _ = .ok (kindOf _, _))).trans ?_
          rw [if_neg (goesOn.kindOf_ne (.inr rfl))]
          refine (bind_of_ok (consumes _)).trans ?_
          exact (bind_of_ok (ih others (Nat.lt_of_succ_lt_succ enough)))

theorem block_consumes {room : Nat} {xs : List (Stmt × List Kind)}
    (each : ∀ x ∈ xs, Consumes (statement room) x.2 x.1 ∧ GoesOn x.2) :
    Consumes (statement (room + 1)) (.sym .lbrace :: (written xs ++ [.sym .rbrace]))
      (.block (xs.map (·.1))) := by
  intro rest
  have enough : xs.length < (bareTokens (written xs ++ [.sym .rbrace]) ++ rest).length := by
    rw [List.length_append]
    exact Nat.lt_add_right _ (length_lt_written fun x mem => (each x mem).2)
  have body : blockRest (statement room) _ (bareTokens (written xs ++ [.sym .rbrace]) ++ rest) =
      .ok (xs.map (·.1), rest) := blockRest_eq_ok each enough
  change (blockRest (statement room) _ >>= fun ss => pure (Stmt.block ss)) _ = _
  exact bind_of_ok body

/-- An `if` is taken with its branch, unless an `else` follows. -/
theorem ifThen_eq_ok {room : Nat} {cond : Expr} {yes : Stmt} {mid : List Token}
    (test : expression room ts = .ok (cond, bareTokens [.sym .rparen] ++ mid))
    (branch : statement room mid = .ok (yes, rest)) (ended : kindOf rest ≠ .sym .elseWord) :
    statement (room + 1) (bareTokens [.sym .ifWord, .sym .lparen] ++ ts) =
      .ok (.ifThen cond yes, rest) := by
  refine (bind_of_ok (rfl : here _ = .ok (0, _))).trans ?_
  refine (bind_of_ok (rfl : peek _ = .ok (.sym .ifWord, _))).trans ?_
  refine (bind_of_ok (rfl : advance _ = .ok ((), _))).trans ?_
  refine (bind_of_ok (rfl : expect _ _ _ = .ok ((), ts))).trans ?_
  refine (bind_of_ok test).trans ?_
  refine (bind_of_ok (rfl : expect _ _ _ = .ok ((), mid))).trans ?_
  refine (bind_of_ok branch).trans ?_
  exact bind_of_ok (accept_eq_false ended)

/-- Functions one behind the other, up to the end of the text. -/
theorem functions_eq_ok {xs : List (FunctionDef × List Kind)}
    (each : ∀ x ∈ xs, Consumes functionDef x.2 x.1 ∧ GoesOn x.2)
    (enough : xs.length < bound.length) :
    functions bound (bareTokens (written xs ++ [.stop])) =
      .ok (xs.map (·.1), bareTokens [.stop]) := by
  induction xs generalizing bound with
  | nil =>
      cases bound with
      | nil => cases enough
      | cons => rfl
  | cons x xs ih =>
      obtain ⟨⟨consumes, goesOn⟩, others⟩ := List.forall_mem_cons.1 each
      cases bound with
      | nil => cases enough
      | cons t bound =>
          rw [written_cons, List.append_assoc, bareTokens_append, functions]
          refine (bind_of_ok (rfl : peek _ = .ok (kindOf _, _))).trans ?_
          rw [if_neg (goesOn.kindOf_ne (.inr rfl))]
          refine (bind_of_ok (consumes _)).trans ?_
          exact (bind_of_ok (ih others (Nat.lt_of_succ_lt_succ enough)))

end Parser

/-! ## Lowering -/

namespace Lower

variable {lib : Library} {cx : Surroundings} {d : Draft} {i : Nat} {g : Function}

theorem find?_of_new {name : String} (new : ∀ g ∈ lib.functions, g.name ≠ name) :
    lib.find? name = none := by
  have nowhere : lib.functions.findIdx? (·.name == name) = none :=
    Array.findIdx?_eq_none_iff.2 fun g mem => beq_false_of_ne (new g mem)
  unfold Library.find?
  rw [lib.places_eq, nowhere]
  rfl

theorem find?_of_nodup (there : lib.functions[i]? = some g)
    (distinct : (lib.functions.toList.map (·.name)).Nodup) : lib.find? g.name = some (i, g) := by
  have inside : i < (lib.functions.toList.map (·.name)).length := by
    rw [List.length_map, Array.length_toList]
    exact (Array.getElem?_eq_some_iff.1 there).1
  obtain ⟨⟨j, x⟩, known⟩ := Option.isSome_iff_exists.1
    (isSome_find? (Array.mem_of_getElem? there))
  obtain ⟨j, place, found⟩ := Option.bind_eq_some_iff.1 known
  obtain ⟨x, found, ⟨⟩⟩ := Option.bind_eq_some_iff.1 found
  rw [places_eq_findIdx?] at place
  obtain ⟨y, here, first⟩ := find?_of_findIdx? place
  have name := List.find?_some first
  have name : y.name = g.name := eq_of_beq name
  rw [← Array.getElem?_toList] at there found
  cases found.symm.trans here
  -- The first function of that name stands where `g` stands, as no two have one name.
  have same : i = j := by
    refine (List.getElem?_inj inside distinct).1 ?_
    rw [List.getElem?_map, List.getElem?_map, there, here, Option.map_some, Option.map_some, name]
  subst same
  cases there.symm.trans here
  exact known

theorem enclosed_of_ok {α : Type} {m : Lower α} {a : α} {d' : Draft}
    (inner : m { d with scopes := ∅ :: d.scopes } = .ok (a, d')) :
    enclosed m d = .ok (a, { d' with scopes := d.scopes }) := by
  unfold enclosed
  refine (bind_of_ok (rfl : (get : Lower Draft) d = .ok (d, d))).trans ?_
  refine (bind_of_ok (rfl : (modify _ : Lower PUnit) d = .ok ((), _))).trans ?_
  exact bind_of_ok inner

theorem expr_call {name : String} (known : cx.library.find? name = some (i, g))
    (params : g.params = []) :
    expr cx (.call 0 name []) d = .ok (([.call (.ofNat i) 0], g.ret.operand), d) := by
  have found : callee cx 0 name 0 = .ok ⟨fitParams g.params,
      fun _ => .ok (.call (.ofNat i) 0, g.ret.operand)⟩ := by
    unfold callee
    rw [known]
    simp [params]
  rw [expr]
  change (liftCause 0 (callee cx 0 name 0) >>= _) d = _
  rw [found]
  rfl

end Lower

/-! ## Compilation -/

/-- A spaced text is compiled to what its tokens are parsed as and lowered to. -/
theorem compile_spaced {xs : List (FunctionDef × List Kind)} {p : Program}
    (spelled : ∀ k ∈ written xs, Spells k k.spelling)
    (each : ∀ x ∈ xs, Parser.Consumes Parser.functionDef x.2 x.1 ∧ Parser.GoesOn x.2)
    (lowered : lowerModule (xs.map (·.1)) = .ok p) : compile (spaced (written xs)) = .ok p := by
  obtain ⟨ts, lexed, kinds⟩ := exists_tokens_spaced spelled
  have enough : xs.length < (bareTokens (written xs ++ [.stop])).length :=
    Parser.length_lt_written fun x mem => (each x mem).2
  have parsed := Parser.functions_eq_ok each enough
  have same : ts.map (·.kind) = (bareTokens (written xs ++ [.stop])).map (·.kind) := by
    rw [kinds, kinds_bareTokens]
  have outcome := lowered_of_kinds same
  rw [← parse_and_lower lexed, parsed] at outcome
  change _ = unplaced id (lowerModule (xs.map (·.1))) at outcome
  rw [lowered] at outcome
  unfold compile
  cases made : parseModule (spaced (written xs)) >>= lowerModule with
  | ok q =>
      rw [made] at outcome
      cases outcome
      rfl
  | error c => rw [made] at outcome; cases outcome

end PixelKernel.Language
