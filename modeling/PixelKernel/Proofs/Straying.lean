import PixelKernel.Proofs.Machine.Matching
import PixelKernel.Proofs.Machine.Steps
import PixelKernel.Proofs.Written

/-! # Where a listing is silent

An instruction has 16 bits for the number of a function and 32 for the distance of a jump. In a text
that exceeds both limits, a jump can pass over the instruction that sets a variable, to the one
behind it, and a call of one function can become a call of another. Then the variable is read before
it is set, and what is read depends on its type, which no listing shows.
-/

namespace PixelKernel.Language.Straying

open Token (Kind)
open Language.Parser (Consumes GoesOn)

/-! ## The texts -/

/-- The name of a function that only takes up a number. -/
def filler (i : Nat) : String := String.ofList (List.replicate (i + 1) 'q')

/-- Result types and names of the functions before the kernel. -/
def helpers (m : Nat) : List (Ty × String) :=
  (.float, "a") :: (List.range m).map (fun i => (.void, filler i)) ++ [(.int, "b")]

/-- A function without statements. -/
def hollow (h : Ty × String) : FunctionDef × List Kind :=
  (⟨h.2, h.1, [], [], none, 0⟩,
    [.word h.1.name, .word h.2, .sym .lparen, .sym .rparen, .sym .lbrace, .sym .rbrace])

/-- `T x = f();` -/
def start (h : Ty × String) : Stmt × List Kind :=
  (.decl 0 h.1 false [⟨"x", 0, some (.call 0 h.2 [])⟩],
    [.word h.1.name, .word "x", .sym .assign, .word h.2, .sym .lparen, .sym .rparen, .sym .semi])

/-- `while (x / x == x);`, which never ends for the int zero, and does not begin for the float. -/
def turning : Stmt × List Kind :=
  (.whileLoop (.binary 0 (.order .eq) (.binary 0 (.arith .div) (.var 0 "x") (.var 0 "x"))
      (.var 0 "x")) .empty,
    [.sym .whileWord, .sym .lparen, .word "x", .sym .slash, .word "x", .sym .eqEq, .word "x",
      .sym .rparen, .sym .semi])

/-- `return;` -/
def leaving : Stmt × List Kind := (.ret 0 none, [.sym .returnWord, .sym .semi])

/-- The statements of the kernel, all of them behind `if (false)`. -/
def inside (h : Ty × String) (n : Nat) : List (Stmt × List Kind) :=
  start h :: turning :: List.replicate n leaving

/-- `kernel __reduce void k() {` -/
def opening : List Kind :=
  [.sym .kernelWord, .sym .reduceWord, .word "void", .word "k", .sym .lparen, .sym .rparen,
    .sym .lbrace]

def kernel (h : Ty × String) (n : Nat) : FunctionDef × List Kind :=
  (⟨"k", .void, [], [.ifThen (.lit 0 (.bool false)) (.block ((inside h n).map (·.1)))],
      some .reduce, 0⟩,
    opening ++ [.sym .ifWord, .sym .lparen, .sym .falseWord, .sym .rparen, .sym .lbrace] ++
      written (inside h n) ++ [.sym .rbrace, .sym .rbrace])

/-- The functions of a text whose kernel calls the function `h`, with `m` functions and `n`
    statements to fill it up. -/
def parts (h : Ty × String) (m n : Nat) : List (FunctionDef × List Kind) :=
  (helpers m).map hollow ++ [kernel h n]

def source (h : Ty × String) (m n : Nat) : String := spaced (written (parts h m n))

/-! ## Parsing -/

variable {h : Ty × String} {m n : Nat}

theorem hollow_consumes : Consumes Parser.functionDef (hollow h).2 (hollow h).1 := by
  obtain ⟨ty, name⟩ := h
  cases ty <;> exact fun _ => rfl

theorem start_consumes : Consumes (Parser.statement 126) (start h).2 (start h).1 := by
  intro rest
  obtain ⟨ty, name⟩ := h
  cases ty <;> with_unfolding_all rfl

theorem turning_consumes : Consumes (Parser.statement 126) turning.2 turning.1 := by
  intro rest
  with_unfolding_all rfl

theorem leaving_consumes : Consumes (Parser.statement 126) leaving.2 leaving.1 := fun _ => rfl

theorem inside_consumes :
    ∀ x ∈ inside h n, Consumes (Parser.statement 126) x.2 x.1 ∧ GoesOn x.2 := by
  have begins {k : Kind} {ks : List Kind} (inside : k ≠ .sym .rbrace) (goes : k ≠ .stop) :
      GoesOn (k :: ks) := ⟨k, ks, rfl, inside, goes⟩
  unfold inside
  rw [List.forall_mem_cons, List.forall_mem_cons]
  refine ⟨⟨start_consumes, begins nofun nofun⟩, ⟨turning_consumes, begins nofun nofun⟩, ?_⟩
  intro x mem
  obtain ⟨-, rfl⟩ := List.mem_replicate.1 mem
  exact ⟨leaving_consumes, begins nofun nofun⟩

theorem functionDef_opening {body : List Stmt} {ts rest : List Token}
    (read : Parser.blockRest (Parser.statement 128) ts ts = .ok (body, rest)) :
    Parser.functionDef (bareTokens opening ++ ts) =
      .ok (⟨"k", .void, [], body, some .reduce, 0⟩, rest) := by
  have opened : Parser.functionDef (bareTokens opening ++ ts) =
      (Parser.blockRest (Parser.statement 128) ts >>= fun body =>
        pure (⟨"k", .void, [], body, some .reduce, 0⟩ : FunctionDef)) ts := rfl
  exact opened.trans (bind_of_ok read)

theorem kernel_consumes : Consumes Parser.functionDef (kernel h n).2 (kernel h n).1 := by
  intro rest
  have block := Parser.block_consumes (inside_consumes (h := h) (n := n))
    (bareTokens [.sym .rbrace] ++ rest)
  -- The tokens in the portions in which the parser takes them.
  have text : bareTokens (kernel h n).2 ++ rest = bareTokens opening ++
      (bareTokens [.sym .ifWord, .sym .lparen] ++ (bareTokens [.sym .falseWord, .sym .rparen] ++
        (bareTokens (.sym .lbrace :: (written (inside h n) ++ [.sym .rbrace])) ++
          (bareTokens [.sym .rbrace] ++ rest)))) := by
    simp [kernel, bareTokens]
  rw [text]
  generalize bareTokens (.sym .lbrace :: _) ++ _ = ts at block ⊢
  have test : Parser.expression 127 (bareTokens [.sym .falseWord, .sym .rparen] ++ ts) =
      .ok (.lit 0 (.bool false), bareTokens [.sym .rparen] ++ ts) := by with_unfolding_all rfl
  have branch := Parser.ifThen_eq_ok test block (by decide : Kind.sym .rbrace ≠ .sym .elseWord)
  refine functionDef_opening ?_
  refine (bind_of_ok (rfl : Parser.accept _ _ = .ok (false, _))).trans ?_
  refine (bind_of_ok (rfl : Parser.peek _ = .ok (.sym .ifWord, _))).trans ?_
  exact bind_of_ok branch

/-! ## Spelling -/

theorem spells_type (ty : Ty) : Spells (.word ty.name) ty.name.toList := by
  cases ty <;> exact spells_run rfl rfl rfl

theorem mem_helpers : h ∈ helpers m ↔
    h = (.float, "a") ∨ (∃ i < m, h = (.void, filler i)) ∨ h = (.int, "b") := by
  simp [helpers, eq_comm]

theorem toList_filler (i : Nat) : (filler i).toList = 'q' :: List.replicate i 'q' := by
  rw [filler, String.toList_ofList, List.replicate_succ]

theorem filler_ne {name : String} (other : name.toList.head? ≠ some 'q') (i : Nat) :
    name ≠ filler i := by
  rintro rfl
  exact other (by rw [toList_filler]; rfl)

theorem spells_filler (i : Nat) : Spells (.word (filler i)) (filler i).toList := by
  have free : Symbol.keywords.find? (·.spelling == filler i) = none := by
    have other : ∀ s ∈ Symbol.keywords, s.spelling.toList.head? ≠ some 'q' := by decide
    exact List.find?_eq_none.2 fun s mem same => filler_ne (other s mem) i (eq_of_beq same)
  have kind : Kind.ofWord (String.ofList ('q' :: List.replicate i 'q')) = .word (filler i) := by
    rw [← toList_filler, String.ofList_toList, Kind.ofWord, free]
  rw [toList_filler, ← kind]
  refine spells_run rfl rfl (List.all_eq_true.2 fun c mem => ?_)
  rw [List.eq_of_mem_replicate mem]
  rfl

theorem spells_helpers (mem : h ∈ helpers m) : Spells (.word h.2) h.2.toList := by
  obtain rfl | ⟨i, -, rfl⟩ | rfl := mem_helpers.1 mem
  · exact spells_run rfl rfl rfl
  · exact spells_filler i
  · exact spells_run rfl rfl rfl

theorem spells_parts (mem : h ∈ helpers m) : ∀ k ∈ written (parts h m n), Spells k k.spelling := by
  have sym (s : Symbol) : Spells (.sym s) (Kind.sym s).spelling := spells_symbol s
  have type (ty : Ty) : Spells (.word ty.name) (Kind.word ty.name).spelling := spells_type ty
  have name {h : Ty × String} (mem : h ∈ helpers m) :
      Spells (.word h.2) (Kind.word h.2).spelling := spells_helpers mem
  have void : Spells (.word "void") (Kind.word "void").spelling := type .void
  have x : Spells (.word "x") (Kind.word "x").spelling := spells_run rfl rfl rfl
  have k : Spells (.word "k") (Kind.word "k").spelling := spells_run rfl rfl rfl
  have body : ∀ k ∈ written (inside h n), Spells k k.spelling := by
    rw [forall_mem_written, inside, List.forall_mem_cons, List.forall_mem_cons]
    refine ⟨?_, ?_, fun y there => ?_⟩
    · simp [start, sym, type, name mem, x]
    · simp [turning, sym, x]
    · rw [List.eq_of_mem_replicate there]
      simp [leaving, sym]
  rw [forall_mem_written, parts, List.forall_mem_append, List.forall_mem_singleton]
  refine ⟨fun y there => ?_, ?_⟩
  · obtain ⟨h, mem, rfl⟩ := List.mem_map.1 there
    simp [hollow, sym, type, name mem]
  · simp only [kernel, List.forall_mem_append]
    refine ⟨⟨⟨?_, ?_⟩, body⟩, ?_⟩
    · simp [opening, sym, k, void]
    · simp [sym]
    · simp [sym]

theorem consumes_parts : ∀ x ∈ parts h m n, Consumes Parser.functionDef x.2 x.1 ∧ GoesOn x.2 := by
  intro x there
  obtain there | last := List.mem_append.1 there
  · obtain ⟨h, -, rfl⟩ := List.mem_map.1 there
    exact ⟨hollow_consumes, _, _, rfl, nofun, nofun⟩
  · obtain rfl := List.mem_singleton.1 last
    exact ⟨kernel_consumes, _, _, rfl, nofun, nofun⟩

/-! ## Lowering -/

/-- The code of a function without statements. -/
def hollowCode (h : Ty × String) : Function :=
  ⟨h.2, [], h.1, #[], #[if h.1 = .void then .retVoid else .missingReturn]⟩

/-- `while (x / x == x);` -/
def turn : List Op :=
  [.load 0, .load 0, .arith .div, .load 0, .compare .eq, .jumpIfFalse 2, .jump (-6)]

def insideOps (callee : UInt16) (n : Nat) : List Op :=
  .call callee 0 :: .store 0 :: (turn ++ List.replicate n .retVoid)

/-- The code of the kernel, whose first jump leads `skip` instructions ahead. -/
def kernelCode (ty : Ty) (callee : UInt16) (skip : Int32) (n : Nat) : Function :=
  ⟨"k", [], .void, #[ty],
    (.const 0 :: .jumpIfFalse skip :: (insideOps callee n ++ [.retVoid])).toArray⟩

def program (ty : Ty) (callee : UInt16) (m n : Nat) : Program where
  functions := ((helpers m).map hollowCode ++
    [kernelCode ty callee (Chunk.distance 0 (n + 10)) n]).toArray
  consts := #[.bool false]
  entry := m + 2
  target := .reduce
  arguments := []

/-- Neither a builtin function nor a type has the name. -/
structure Free (name : String) : Prop where
  builtin : Builtin.named name = []
  type : Ty.ofName? name = none

theorem free_filler (i : Nat) : Free (filler i) := by
  constructor
  · unfold Builtin.named
    split
    all_goals first | rfl | next same => exact absurd same.symm (filler_ne (by decide) i)
  · unfold Ty.ofName?
    split
    all_goals first | rfl | next same => exact absurd same.symm (filler_ne (by decide) i)

theorem free_helpers (mem : h ∈ helpers m) : Free h.2 := by
  obtain rfl | ⟨i, -, rfl⟩ | rfl := mem_helpers.1 mem
  · exact ⟨rfl, rfl⟩
  · exact free_filler i
  · exact ⟨rfl, rfl⟩

theorem filler_inj {i j : Nat} (same : filler i = filler j) : i = j := by
  have length := congrArg (·.toList.length) same
  simpa [filler] using length

theorem nodup_helpers (m : Nat) : ((helpers m).map (·.2)).Nodup := by
  have fillers : ((List.range m).map filler).Nodup :=
    List.nodup_range.map fun _ _ => filler_inj
  have names : (helpers m).map (·.2) = "a" :: ((List.range m).map filler ++ ["b"]) := by
    simp [helpers]
  rw [names, List.nodup_cons, List.nodup_append]
  refine ⟨?_, fillers, List.nodup_singleton _, ?_⟩
  · have other : "a".toList.head? ≠ some 'q' := by decide
    simp [(filler_ne other _).symm]
  · have other : "b".toList.head? ≠ some 'q' := by decide
    simp [(filler_ne other _).symm]

variable {lib : Library} {consts : Array Value} {cx : Surroundings} {d : Draft} {i : Nat}

theorem function_hollow (new : ∀ g ∈ lib.functions, g.name ≠ h.2) (free : Free h.2)
    (ret : h.1 ≠ .sampler) :
    Lower.function lib consts (hollow h).1 = .ok (hollowCode h, consts) := by
  have head : Lower.checkHead lib (hollow h).1 = .ok () := by
    simp [Lower.checkHead, hollow, Lower.find?_of_new new, free.builtin, free.type, ret]
    rfl
  unfold Lower.function
  rw [head]
  rfl

/-- Functions without statements go into the library one after the other. -/
theorem functionsFrom_hollow {hs : List (Ty × String)}
    (free : ∀ h ∈ hs, Free h.2 ∧ h.1 ≠ .sampler)
    (distinct : (lib.functions.toList.map (·.name) ++ hs.map (·.2)).Nodup) (fs : List FunctionDef) :
    ∃ lib' : Library, lib'.functions.toList = lib.functions.toList ++ hs.map hollowCode ∧
      Lower.functionsFrom lib consts (hs.map (fun h => (hollow h).1) ++ fs) =
        Lower.functionsFrom lib' consts fs := by
  induction hs generalizing lib with
  | nil => exact ⟨lib, (List.append_nil _).symm, rfl⟩
  | cons h hs ih =>
      obtain ⟨⟨first, ret⟩, others⟩ := List.forall_mem_cons.1 free
      have new : ∀ g ∈ lib.functions, g.name ≠ h.2 := fun g mem =>
        (List.nodup_append.1 distinct).2.2 g.name
          (List.mem_map_of_mem (Array.mem_toList_iff.2 mem)) h.2 List.mem_cons_self
      have added : (lib.add (hollowCode h)).functions.toList =
          lib.functions.toList ++ [hollowCode h] := by simp [Library.add]
      have rest : ((lib.add (hollowCode h)).functions.toList.map (·.name) ++
          hs.map (·.2)).Nodup := by
        rw [added, List.map_append, List.append_assoc]
        exact distinct
      obtain ⟨lib', functions, lowered⟩ := ih others rest
      refine ⟨lib', ?_, ?_⟩
      · rw [functions, added, List.append_assoc]
        rfl
      · rw [← lowered, List.map_cons, List.cons_append, Lower.functionsFrom,
          function_hollow new first ret]
        rfl

/-! ### The kernel -/

/-- What has been collected when the variable of the kernel is declared. -/
def declared (ty : Ty) : Draft :=
  ⟨#[.bool false], #[ty], [(∅ : Scope).insert "x" ⟨0, ty, false⟩, ∅, ∅]⟩

theorem start_lowered (known : cx.library.find? h.2 = some (i, hollowCode h))
    (counts : h.1 = .int ∨ h.1 = .float) :
    Lower.stmt cx false (start h).1 ⟨#[.bool false], #[], [∅, ∅, ∅]⟩ =
      .ok (.ofOps [.call (.ofNat i) 0, .store 0], declared h.1) := by
  have value : Lower.declarator cx h.1 false ⟨"x", 0, some (.call 0 h.2 [])⟩
      ⟨#[.bool false], #[], [∅, ∅, ∅]⟩ = .ok ([.call (.ofNat i) 0, .store 0], declared h.1) := by
    have given : Lower.expr cx (.call 0 h.2 []) ⟨#[.bool false], #[], [∅, ∅, ∅]⟩ =
        .ok (([.call (.ofNat i) 0], h.1.operand), ⟨#[.bool false], #[], [∅, ∅, ∅]⟩) :=
      Lower.expr_call known rfl
    rw [Lower.declarator]
    refine (bind_of_ok given).trans ?_
    rcases counts with ty | ty <;> rw [ty] <;> rfl
  have values : Lower.declarators cx h.1 false [⟨"x", 0, some (.call 0 h.2 [])⟩]
      ⟨#[.bool false], #[], [∅, ∅, ∅]⟩ = .ok ([.call (.ofNat i) 0, .store 0], declared h.1) :=
    bind_of_ok value
  rw [start, Lower.stmt]
  rcases counts with ty | ty <;> rw [ty] at values ⊢ <;> exact bind_of_ok values

theorem turning_lowered {ty : Ty} (counts : ty = .int ∨ ty = .float) :
    Lower.stmt cx false turning.1 (declared ty) = .ok (.ofOps turn, declared ty) := by
  rcases counts with rfl | rfl <;> with_unfolding_all rfl

theorem leaving_lowered (ret : cx.ret = .void) :
    Lower.stmt cx false leaving.1 d = .ok (.ofOps [.retVoid], d) := by
  have returned : Lower.returned cx 0 none d = .ok ([.retVoid], d) := by
    unfold Lower.returned
    rw [if_neg (not_not.2 ret)]
    rfl
  exact bind_of_ok returned

theorem leavings_lowered (ret : cx.ret = .void) (n : Nat) :
    Lower.stmts cx false (List.replicate n leaving.1) d =
      .ok (.ofOps (List.replicate n .retVoid), d) := by
  induction n with
  | zero => rfl
  | succ n ih =>
      rw [List.replicate_succ, Lower.stmts]
      exact (bind_of_ok (leaving_lowered ret)).trans (bind_of_ok ih)

theorem inside_lowered (known : cx.library.find? h.2 = some (i, hollowCode h))
    (counts : h.1 = .int ∨ h.1 = .float) (ret : cx.ret = .void) :
    Lower.stmts cx false ((inside h n).map (·.1)) ⟨#[.bool false], #[], [∅, ∅, ∅]⟩ =
      .ok (.ofOps (insideOps (.ofNat i) n), declared h.1) := by
  rw [inside, List.map_cons, List.map_cons, List.map_replicate, Lower.stmts]
  refine (bind_of_ok (start_lowered known counts)).trans ?_
  have rest : Lower.stmts cx false (turning.1 :: List.replicate n leaving.1) (declared h.1) =
      .ok (.ofOps turn ++ .ofOps (List.replicate n .retVoid), declared h.1) := by
    rw [Lower.stmts]
    exact (bind_of_ok (turning_lowered counts)).trans (bind_of_ok (leavings_lowered ret n))
  refine (bind_of_ok rest).trans ?_
  simp only [insideOps, Chunk.ofOps, List.map_append, List.map_cons]
  rfl

/-- The first jump of the kernel passes over all that is behind its test. -/
theorem branch_lowered (known : cx.library.find? h.2 = some (i, hollowCode h))
    (counts : h.1 = .int ∨ h.1 = .float) (ret : cx.ret = .void) :
    Lower.stmts cx false (kernel h n).1.body ⟨#[], #[], [∅]⟩ =
      .ok (.ofOps (.const 0 :: .jumpIfFalse (Chunk.distance 0 (n + 10)) :: insideOps (.ofNat i) n),
        ⟨#[.bool false], #[h.1], [∅]⟩) := by
  have block : Lower.stmt cx false (.block ((inside h n).map (·.1)))
      ⟨#[.bool false], #[], [∅, ∅]⟩ = _ := Lower.enclosed_of_ok (inside_lowered known counts ret)
  have branch : Lower.enclosed (Lower.stmt cx false (.block ((inside h n).map (·.1))))
      ⟨#[.bool false], #[], [∅]⟩ = _ := Lower.enclosed_of_ok block
  have test : Lower.condition cx (.lit 0 (.bool false)) ⟨#[], #[], [∅]⟩ =
      .ok ([.const 0], ⟨#[.bool false], #[], [∅]⟩) := by with_unfolding_all rfl
  have first : Lower.stmt cx false
      (.ifThen (.lit 0 (.bool false)) (.block ((inside h n).map (·.1)))) ⟨#[], #[], [∅]⟩ =
      .ok (.ifThen [.const 0] (.ofOps (insideOps (.ofNat i) n)),
        ⟨#[.bool false], #[h.1], [∅]⟩) := by
    rw [Lower.stmt]
    exact (bind_of_ok test).trans (bind_of_ok branch)
  have length : (Chunk.ofOps (insideOps (.ofNat i) n)).length + 1 = n + 10 := by
    simp [Chunk.ofOps, insideOps, turn]
  rw [kernel, Lower.stmts]
  refine (bind_of_ok first).trans ?_
  refine (bind_of_ok (rfl : Lower.stmts cx false [] _ = .ok ([], _))).trans ?_
  rw [List.append_nil, Chunk.ifThen, length]
  rfl

theorem kernel_lowered (known : lib.find? h.2 = some (i, hollowCode h))
    (counts : h.1 = .int ∨ h.1 = .float) (new : ∀ g ∈ lib.functions, g.name ≠ "k") :
    Lower.function lib #[] (kernel h n).1 =
      .ok (kernelCode h.1 (.ofNat i) (Chunk.distance 0 (n + 10)) n, #[.bool false]) := by
  have head : Lower.checkHead lib (kernel h n).1 = .ok () := by
    have free : Free "k" := ⟨rfl, rfl⟩
    simp [Lower.checkHead, kernel, Lower.find?_of_new new, free.builtin, free.type]
    rfl
  have body : Lower.stmts ⟨lib, "k", .void, some .reduce⟩ false (kernel h n).1.body
      ⟨#[], #[], [∅]⟩ = _ := branch_lowered known counts rfl
  -- With its head checked, the function is what its body is lowered to, and a last return.
  unfold Lower.function
  rw [head]
  change (Lower.stmts ⟨lib, "k", .void, some .reduce⟩ false (kernel h n).1.body
      ⟨#[], #[], [∅]⟩ >>= _) = _
  rw [body]
  change Except.ok (_, _) = _
  rw [Chunk.ops_ofOps]
  rfl

theorem functions_parts : (parts h m n).map (·.1) =
    (helpers m).map (fun h => (hollow h).1) ++ [(kernel h n).1] := by
  simp [parts]

theorem lowered_parts (there : (helpers m)[i]? = some h) (counts : h.1 = .int ∨ h.1 = .float) :
    lowerModule ((parts h m n).map (·.1)) = .ok (program h.1 (.ofNat i) m n) := by
  have tagged : theKernel ((parts h m n).map (·.1)) = .ok ((kernel h n).1, .reduce) := by
    have plain :
        (helpers m).filterMap (fun h => (hollow h).1.kernel.map ((hollow h).1, ·)) = [] := by
      simp [hollow]
    unfold theKernel
    rw [functions_parts, List.filterMap_append, List.filterMap_map]
    simp only [Function.comp_def]
    rw [plain]
    rfl
  have place : ((parts h m n).map (·.1)).findIdx? (·.kernel.isSome) = some (m + 2) := by
    have plain : ((helpers m).map fun h => (hollow h).1).findIdx? (·.kernel.isSome) = none := by
      simp [hollow]
    rw [functions_parts, List.findIdx?_append, plain]
    simp [kernel, helpers]
  have free : ∀ h ∈ helpers m, Free h.2 ∧ h.1 ≠ .sampler := by
    refine fun h mem => ⟨free_helpers mem, ?_⟩
    obtain rfl | ⟨j, -, rfl⟩ | rfl := mem_helpers.1 mem <;> exact nofun
  have distinct : (Library.empty.functions.toList.map (·.name) ++ (helpers m).map (·.2)).Nodup :=
    nodup_helpers m
  obtain ⟨lib, functions, lowered⟩ :
      ∃ lib : Library, lib.functions.toList = Library.empty.functions.toList ++
          (helpers m).map hollowCode ∧
        Lower.functionsFrom .empty #[] ((helpers m).map (fun h => (hollow h).1) ++
          [(kernel h n).1]) = Lower.functionsFrom lib #[] [(kernel h n).1] :=
    functionsFrom_hollow free distinct _
  rw [show Library.empty.functions.toList = [] from rfl, List.nil_append] at functions
  have names : lib.functions.toList.map (·.name) = (helpers m).map (·.2) := by
    rw [functions]
    simp [hollowCode]
  have there' : lib.functions[i]? = some (hollowCode h) := by
    rw [← Array.getElem?_toList, functions]
    simp [there]
  have known : lib.find? h.2 = some (i, hollowCode h) :=
    Lower.find?_of_nodup there' (names ▸ nodup_helpers m)
  have new : ∀ g ∈ lib.functions, g.name ≠ "k" := by
    intro g mem
    have mem := List.mem_map_of_mem (f := (·.name)) (Array.mem_toList_iff.2 mem)
    rw [names] at mem
    obtain ⟨h, there, same⟩ := List.mem_map.1 mem
    rw [← same]
    -- `k` is none of `a`, `b` and the names that begin with `q`.
    obtain rfl | ⟨j, -, rfl⟩ | rfl := mem_helpers.1 there
    · decide
    · exact (filler_ne (by decide) j).symm
    · decide
  unfold lowerModule
  rw [tagged, place, functions_parts]
  change (Lower.functionsFrom .empty #[] _ >>= _) = _
  rw [lowered, Lower.functionsFrom, kernel_lowered known counts new]
  have all : (lib.add (kernelCode h.1 (.ofNat i) (Chunk.distance 0 (n + 10)) n)).functions =
      ((helpers m).map hollowCode ++
        [kernelCode h.1 (.ofNat i) (Chunk.distance 0 (n + 10)) n]).toArray := by
    rw [← Array.toList_inj, Library.add, Array.toList_push, functions]
  change Except.ok (Program.mk _ _ _ _ _) = _
  rw [all]
  rfl

theorem compile_source (there : (helpers m)[i]? = some h) (counts : h.1 = .int ∨ h.1 = .float) :
    compile (source h m n) = .ok (program h.1 (.ofNat i) m n) :=
  compile_spaced (spells_parts (List.mem_of_getElem? there)) consumes_parts
    (lowered_parts there counts)

/-! ## Listing -/

/-- The type of the variable is not listed. -/
theorem listing_program (ty ty' : Ty) (callee : UInt16) (m n : Nat) :
    (program ty callee m n).listing = (program ty' callee m n).listing := by
  refine listing_congr rfl rfl rfl fun i => ?_
  rw [program, program, List.getElem?_toArray, List.getElem?_toArray, List.getElem?_append,
    List.getElem?_append]
  -- The helpers are the same, and the kernels differ in the type of their variable only.
  split
  · cases ((helpers m).map hollowCode)[i]? with
    | none => exact .none
    | some g => exact .some ⟨⟨rfl, rfl, rfl, rfl⟩, rfl⟩
  · cases i - ((helpers m).map hollowCode).length with
    | zero => exact .some ⟨⟨rfl, rfl, rfl, rfl⟩, rfl⟩
    | succ => exact .none

/-! ## Running -/

open Machine

variable {σ : Type} {p : Program} {host : Host σ} {s : σ} {ty : Ty} {w : Value} {c : Bool}

/-- The kernel at an instruction, with its variable as it was when the call began. -/
def kernelAt (ty : Ty) (n pc : Nat) (stack : List Value) : Machine :=
  ⟨⟨kernelCode ty 0 3 n, pc, #[Value.zero ty], stack⟩, []⟩

theorem leads {site target : Nat} {offset : Int32} (lands : (site : Int) + offset.toInt = target)
    (near : target ≤ 11) : Leads (kernelCode ty 0 3 n).code site offset target := by
  have size : (kernelCode ty 0 3 n).code.size = n + 12 := by simp [kernelCode, insideOps, turn]
  unfold Leads jumpTarget
  rw [size, lands, if_neg (by omega)]
  rfl

/-- The first jump passes over the call and over the instruction that sets the variable. -/
theorem reaches_turn (consts : p.consts = #[.bool false]) :
    Reaches p host 2 (kernelAt ty n 0 []) s (kernelAt ty n 4 []) s := by
  have test : p.consts[(0 : UInt32).toNat]? = some (.bool false) := by rw [consts]; rfl
  exact .next (step_const rfl test) (.one (step_jumpIfFalse rfl (leads rfl (by decide))))

theorem reaches_test (quotient : Value.arith .div (.zero ty) (.zero ty) = .ok w)
    (number : w.ty ≠ .sampler) (test : Value.compare .eq w (.zero ty) = .ok c) :
    Reaches p host 5 (kernelAt ty n 4 []) s (kernelAt ty n 9 [.bool c]) s :=
  .next (step_load rfl rfl) <| .next (step_load rfl rfl) <|
    .next (step_onTwo rfl rfl (fun _ => rfl) quotient) <| .next (step_load rfl rfl) <|
      .one (step_compare rfl number test)

/-- Zero divided by zero is zero for ints, so the kernel turns for ever. -/
theorem outlasts_int (consts : p.consts = #[.bool false]) (k : Nat) :
    Outlasts p host k (kernelAt .int n 0 []) s := by
  have quotient : Value.arith .div (.zero .int) (.zero .int) = .ok (.int 0) := rfl
  have turns : Reaches p host 7 (kernelAt .int n 4 []) s (kernelAt .int n 4 []) s :=
    (reaches_test quotient nofun rfl).trans <|
      .next (step_jumpIfFalse rfl (leads rfl (Nat.le_refl 11))) <|
        .one (step_jump ⟨_, rfl, leads rfl (by decide)⟩)
  have more : Reaches p host (7 * k) (kernelAt .int n 4 []) s (kernelAt .int n 4 []) s := by
    induction k with
    | zero => exact .refl
    | succ k ih => exact ih.trans turns
  exact ⟨_, _, _, by omega, (reaches_turn consts).trans more⟩

/-- For floats it is no number, which equals nothing, so the kernel ends. -/
theorem halts_float (consts : p.consts = #[.bool false]) :
    Halts p host 8 (kernelAt .float n 0 []) s (.ok none) s := by
  have quotient : Value.arith .div (.zero .float) (.zero .float) = .ok (.float (0 / 0)) := rfl
  have test : Value.compare .eq (.float (0 / 0)) (.zero .float) = .ok false := by decide +kernel
  have leaves : Reaches p host 8 (kernelAt .float n 0 []) s (kernelAt .float n 11 []) s :=
    (reaches_turn consts).trans <| (reaches_test quotient nofun test).trans <|
      .one (step_jumpIfFalse rfl (leads rfl (Nat.le_refl 11)))
  have last : (kernelCode .float 0 3 n).code[11]? = some .retVoid := by cases n <;> rfl
  exact ⟨_, _, leaves, step_retVoid last⟩

/-! ## Beyond both limits -/

theorem enter_program (skips : Chunk.distance 0 (n + 10) = 3) :
    enter (program ty 0 m n) (m + 2) [] [] = .ok (kernelAt ty n 0 []) := by
  have there : (program ty 0 m n).functions[m + 2]? = some (kernelCode ty 0 3 n) := by
    have length : ((helpers m).map hollowCode).length = m + 2 := by simp [helpers]
    rw [program, skips, List.getElem?_toArray, List.getElem?_append_right (by omega), length,
      Nat.sub_self]
    rfl
  unfold enter
  rw [there]
  rfl

theorem run_int (skips : Chunk.distance 0 (n + 10) = 3) (b : Nat) :
    ∃ s', (program .int 0 m n).run [] host b s = ⟨.error .budget, 0, s'⟩ := by
  have entered : enter (program .int 0 m n) (program .int 0 m n).entry [] [] = _ :=
    enter_program skips
  rw [Program.run, entered]
  exact (outlasts_int rfl b).run_le (Nat.le_refl b)

theorem run_float (skips : Chunk.distance 0 (n + 10) = 3) (b : Nat) :
    (program .float 0 m n).run [] host (b + 9) s = ⟨.ok none, b, s⟩ := by
  have entered : enter (program .float 0 m n) (program .float 0 m n).entry [] [] = _ :=
    enter_program skips
  rw [Program.run, entered]
  exact (halts_float rfl).run_eq b

/-- Where the number of a function and the distance of a jump both come around, two texts have one
    listing, and one of their kernels ends while the other does not. -/
theorem listing_silent {m n : Nat} (calls : UInt16.ofNat (m + 1) = 0)
    (skips : Chunk.distance 0 (n + 10) = 3) : ∃ p q,
    compile (source (.int, "b") m n) = .ok p ∧ compile (source (.float, "a") m n) = .ok q ∧
      p.TellsFloats q ∧ p.listing = q.listing ∧ p.arguments = [] ∧
      ∀ {σ : Type} (host : Host σ) (b : Nat) (s : σ),
        (∃ s', p.run [] host b s = ⟨.error .budget, 0, s'⟩) ∧
          q.run [] host (b + 9) s = ⟨.ok none, b, s⟩ := by
  have first : (helpers m)[0]? = some (.float, "a") := rfl
  have last : (helpers m)[m + 1]? = some (.int, "b") := by simp [helpers]
  have int : compile (source (.int, "b") m n) = .ok (program .int 0 m n) :=
    calls ▸ compile_source last (.inl rfl)
  have float : compile (source (.float, "a") m n) = .ok (program .float 0 m n) :=
    compile_source first (.inr rfl)
  refine ⟨_, _, int, float, ?_, listing_program .int .float 0 m n, rfl, ?_⟩
  · intro x y hx
    simp [program] at hx
  · exact fun host b s => ⟨run_int skips b, run_float skips b⟩

/-- A text of some forty gigabytes is enough. -/
theorem listing_undetermined : ¬∀ (source source' : String) (p q : Program),
    compile source = .ok p → compile source' = .ok q → p.TellsFloats q → p.listing = q.listing →
      ∀ args : List Value, args.map Value.ty = p.arguments.map (·.ty.operand) →
        ∀ {σ : Type} (host : Host σ) (b : Nat) (s : σ),
          p.run args host b s = q.run args host b s := by
  intro determined
  obtain ⟨p, q, int, float, tells, same, plain, runs⟩ :=
    listing_silent (m := 65535) (n := 2 ^ 32 - 7) (by decide) (by decide)
  have host : Host Unit :=
    ⟨(0, 0), fun _ _ s => (.error .budget, s), fun _ p s => (p, s), fun _ s => (((0, 0), 0, 0), s),
      fun _ s => (.ok (), s)⟩
  obtain ⟨s, spent⟩ := (runs host 9 ()).1
  have equal := determined _ _ p q int float tells same [] (by rw [plain]; rfl) host 9 ()
  rw [spent, (runs host 0 ()).2] at equal
  injection equal with result
  cases result

end PixelKernel.Language.Straying
