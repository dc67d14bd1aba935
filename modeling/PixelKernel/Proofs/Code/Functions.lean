import PixelKernel.Proofs.Code.Statements

/-! # Code of functions and modules

A module that is lowered gives one function of code for each of its functions, in order. Calls
refer to functions by their places, and a name that is taken stays taken.
-/

namespace PixelKernel.Language

/-- Parameters have the slots from `k` on. -/
inductive ParamsAt (slots : Nat) : List Scope → Nat → List Param → List Scope → Prop where
  | nil {scopes k} : ParamsAt slots scopes k [] scopes
  | cons {scopes k p rest x scopes₁ scopes₂} (value : p.ty ≠ .void)
      (declared : Declared slots scopes p.name x scopes₁) (typed : x.ty = p.ty)
      (slot : x.slot.toNat = k) (tail : ParamsAt slots scopes₁ (k + 1) rest scopes₂) :
      ParamsAt slots scopes k (p :: rest) scopes₂

/-- Result that a kernel must declare. -/
def Target.Declares (t : Option Target) (ret : Ty) : Prop :=
  match t with
  | some .normal => ret.operand = .vec4
  | some .reduce => ret = .void
  | none => True

/-- The code of a function stands for the function. -/
structure FunctionAt (module : List FunctionDef) (consts : Array Value) (f : FunctionDef)
    (g : Function) : Prop where
  name : g.name = f.name
  params : g.params = f.params.map (·.ty)
  ret : g.ret = f.ret
  kernel : Target.Declares f.kernel f.ret
  body : ∃ scopes pc scopes', ParamsAt g.locals.size [∅] 0 f.params scopes ∧
    StmtsAt ⟨module, consts, g.code, g.locals.size, f.ret⟩ none scopes 0 f.body pc scopes' ∧
    g.code[pc]? = some (if f.ret = .void then .retVoid else .missingReturn)

namespace Lower

variable {d d' : Draft}

theorem parameters_eq_ok {isKernel : Bool} {params : List Param} (sound : Sound d)
    (h : parameters isKernel params d = .ok ((), d')) : Steps d d' ∧
      ∀ {slots}, d'.locals.size ≤ slots →
        ParamsAt slots d.scopes d.locals.size params d'.scopes := by
  induction params generalizing d with
  | nil =>
      obtain ⟨-, rfl⟩ := pure_eq_ok.1 h
      exact ⟨.refl sound, fun _ => .nil⟩
  | cons p rest ih =>
      unfold parameters at h
      simp only [check_eq_ok, bind_eq_ok] at h
      obtain ⟨value, -, slot, d₁, declared, others⟩ := h
      obtain ⟨steps, size, x, rfl, typed, place, fresh⟩ := declare_eq_ok sound declared
      obtain ⟨steps', placed⟩ := ih steps.sound others
      refine ⟨steps.trans steps', fun most => ?_⟩
      have tail := placed most
      rw [size] at tail
      exact .cons value (fresh (Nat.le_trans steps'.locals most)) typed place tail

/-- Parameters of one function have names of their own. -/
theorem names_of_parameters {isKernel : Bool} {params : List Param} {scope : Scope}
    {outer : List Scope} (h : parameters isKernel params d = .ok ((), d'))
    (scopes : d.scopes = scope :: outer) :
    (params.map (·.name)).Nodup ∧ ∀ p ∈ params, scope.contains p.name = false := by
  induction params generalizing d scope with
  | nil => exact ⟨.nil, nofun⟩
  | cons p rest ih =>
      unfold parameters at h
      simp only [check_eq_ok, bind_eq_ok] at h
      obtain ⟨-, -, slot, d₁, declared, others⟩ := h
      unfold declare at declared
      simp only [bind_eq_ok, get_eq_ok] at declared
      obtain ⟨_, _, ⟨rfl, rfl⟩, declared⟩ := declared
      simp only [scopes, check_eq_ok, bind_eq_ok, set_eq_ok, pure_eq_ok] at declared
      obtain ⟨new, -, _, _, rfl, -, rfl⟩ := declared
      obtain ⟨distinct, apart⟩ := ih others rfl
      simp only [Std.TreeMap.contains_insert, Bool.or_eq_false_iff, beq_eq_false_iff_ne, ne_eq] at apart
      refine ⟨List.nodup_cons.2 ⟨fun there => ?_, distinct⟩, List.forall_mem_cons.2
        ⟨Bool.eq_false_iff.2 new, fun q hq => (apart q hq).2⟩⟩
      obtain ⟨q, hq, same⟩ := List.mem_map.1 there
      exact (apart q hq).1 (Std.LawfulEqCmp.compare_eq_iff_eq.2 same.symm)

/-! ## Functions -/

/-- A name that neither a builtin nor a type has. -/
def OwnName (name : String) : Prop := Builtin.named name = [] ∧ Ty.ofName? name = none

theorem checkHead_eq_ok {lib : Library} {f : FunctionDef} (h : checkHead lib f = .ok ()) :
    OwnName f.name ∧ Target.Declares f.kernel f.ret := by
  unfold checkHead at h
  simp only [bind, Except.bind, throw, throwThe, MonadExceptOf.throw, pure, Except.pure] at h
  split at h
  · cases h
  split at h
  · cases h
  next own =>
  split at h
  · cases h
  next =>
    simp only [Bool.not_eq_true, Option.isSome_eq_false_iff, Option.isNone_iff_eq_none,
      Bool.or_eq_false_iff, Bool.not_eq_false', List.isEmpty_iff] at own
    refine ⟨own, ?_⟩
    cases target : f.kernel with
    | none => trivial
    | some t =>
        rw [target] at h
        cases t with
        | normal =>
            dsimp only at h
            split at h
            · cases h
            next result =>
              rw [Decidable.not_not] at result
              exact result
        | reduce =>
            dsimp only at h
            split at h
            · cases h
            next result =>
              rw [Decidable.not_not] at result
              exact result

/-- What lowering a function achieves. -/
structure FunctionOk (lib : Library) (consts consts' : Array Value) (f : FunctionDef)
    (g : Function) : Prop where
  pool : Pool consts'
  consts : consts.toList <+: consts'.toList
  own : OwnName f.name
  name : g.name = f.name
  params : g.params = f.params.map (·.ty)
  ret : g.ret = f.ret
  placed : ∀ {module : List FunctionDef} {all : Array Value},
    (∀ d, d.consts = consts' → d.locals.size ≤ g.locals.size →
      Site.Serves ⟨module, all, g.code, g.locals.size, f.ret⟩ ⟨lib, f.name, f.ret, f.kernel⟩ d) →
    FunctionAt module all f g

/-- The walk over a function: its head, its parameters and its body. -/
theorem function_ran {lib : Library} {consts consts' : Array Value} {f : FunctionDef}
    {g : Function} (h : function lib consts f = .ok (g, consts')) :
    checkHead lib f = .ok () ∧ ∃ d chunk d',
      parameters f.kernel.isSome f.params ⟨consts, #[], [∅]⟩ = .ok ((), d) ∧
      stmts ⟨lib, f.name, f.ret, f.kernel⟩ false f.body d = .ok (chunk, d') ∧
      consts' = d'.consts ∧ g = ⟨f.name, f.params.map (·.ty), f.ret, d'.locals,
        (chunk.ops ++ [if f.ret = .void then Op.retVoid else .missingReturn]).toArray⟩ := by
  unfold function at h
  cases head : checkHead lib f with
  | error => rw [head] at h; cases h
  | ok =>
      rw [head] at h
      simp only [bind, Except.bind, pure, Except.pure] at h
      split at h
      · cases h
      next v ran =>
      obtain ⟨chunk, d'⟩ := v
      cases h
      obtain ⟨_, d, taken, body⟩ := bind_eq_ok.1 ran
      exact ⟨rfl, d, chunk, d', taken, body, rfl, rfl⟩

theorem function_eq_ok {lib : Library} {consts consts' : Array Value} {f : FunctionDef}
    {g : Function} (pool : Pool consts) (floats : Stmt.FloatsList Signless f.body)
    (h : function lib consts f = .ok (g, consts')) : FunctionOk lib consts consts' f g := by
  obtain ⟨head, d, chunk, d', taken, body, rfl, rfl⟩ := function_ran h
  obtain ⟨own, kernel⟩ := checkHead_eq_ok head
  obtain ⟨steps, params⟩ := parameters_eq_ok (.start pool) taken
  obtain ⟨steps', closed, placed⟩ := stmts_lower _ f.body floats steps.sound body
  refine ⟨steps'.sound.pool, steps.consts.trans steps'.consts, own, rfl, rfl, rfl,
    fun {module all} serves => ?_⟩
  have at_ := opsAt_append [] (chunk.ops ++ [if f.ret = .void then .retVoid else .missingReturn])
  obtain ⟨pc, bodyAt, last⟩ := Placed.append.1 at_
  obtain ⟨last, -⟩ := Placed.cons_iff.1 last
  refine ⟨rfl, rfl, rfl, kernel, d.scopes, pc, d'.scopes, params steps'.locals, ?_, last⟩
  exact placed (serves d' rfl (Nat.le_refl _)) (Nat.zero_le _) ((closed rfl).chunkAt bodyAt)

/-! ## Modules -/

/-- A function and its code have one head. -/
structure HeadOf (f : FunctionDef) (g : Function) : Prop where
  name : g.name = f.name
  params : g.params = f.params.map (·.ty)
  ret : g.ret = f.ret

theorem findIdx?_heads {fs : List FunctionDef} {gs : List Function} (name : String)
    (heads : List.Forall₂ HeadOf fs gs) :
    fs.findIdx? (·.name == name) = gs.findIdx? (·.name == name) := by
  induction heads with
  | nil => rfl
  | cons head _ ih => rw [List.findIdx?_cons, List.findIdx?_cons, ih, head.name]

theorem find?_of_findIdx? {α : Type} {p : α → Bool} {xs : List α} {i : Nat}
    (h : xs.findIdx? p = some i) : ∃ x, xs[i]? = some x ∧ xs.find? p = some x := by
  induction xs generalizing i with
  | nil => cases h
  | cons x xs ih =>
      rw [List.findIdx?_cons] at h
      split at h
      next holds => cases h; exact ⟨x, rfl, List.find?_cons_of_pos holds⟩
      next fails =>
        obtain ⟨j, found, rfl⟩ := Option.map_eq_some_iff.1 h
        obtain ⟨y, there, first⟩ := ih found
        exact ⟨y, there, by rw [List.find?_cons_of_neg fails, first]⟩

variable {lib : Library} {done : List FunctionDef}

theorem places_eq_findIdx? (lib : Library) (name : String) :
    lib.places[name]? = lib.functions.toList.findIdx? (·.name == name) := by
  rw [lib.places_eq]
  rcases lib.functions with ⟨gs⟩
  rw [List.findIdx?_toArray]

theorem find?_eq_some (heads : List.Forall₂ HeadOf done lib.functions.toList) {name : String}
    {i : Nat} {g : Function} (h : lib.find? name = some (i, g)) :
    ∃ f, done.find? (·.name == name) = some f ∧ done[i]? = some f ∧ HeadOf f g := by
  obtain ⟨i, place, found⟩ := Option.bind_eq_some_iff.1 h
  obtain ⟨g, at_, ⟨⟩⟩ := Option.bind_eq_some_iff.1 found
  rw [places_eq_findIdx?, ← findIdx?_heads name heads] at place
  obtain ⟨f, there, first⟩ := find?_of_findIdx? place
  refine ⟨f, first, there, ?_⟩
  rw [← Array.getElem?_toList] at at_
  obtain ⟨inside, rfl⟩ := List.getElem?_eq_some_iff.1 there
  obtain ⟨inside', rfl⟩ := List.getElem?_eq_some_iff.1 at_
  exact heads.get inside inside'

/-- Names of builtins and types are not those of functions. -/
theorem find?_eq_none {module : List FunctionDef} (own : ∀ f ∈ module, OwnName f.name) {name : String}
    (special : Builtin.named name ≠ [] ∨ (Ty.ofName? name).isSome) :
    module.find? (·.name == name) = none := by
  rw [List.find?_eq_none]
  intro f hf named
  obtain rfl := eq_of_beq named
  obtain ⟨builtin, ty⟩ := own f hf
  rcases special with h | h
  · exact h builtin
  · rw [ty] at h
    cases h

/-- A site refers to functions as the library does that its code was lowered against. -/
theorem serves_of_heads {site : Site} {cx : Surroundings} {fs : List FunctionDef} {d : Draft}
    (heads : List.Forall₂ HeadOf done cx.library.functions.toList)
    (same : site.module = done ++ fs) (own : ∀ f ∈ site.module, OwnName f.name)
    (few : site.module.length ≤ 65536) (short : site.code.size < 2 ^ 31)
    (slots : d.locals.size ≤ site.slots) (ret : site.ret = cx.ret)
    (consts : d.consts.toList <+: site.consts.toList) : site.Serves cx d where
  short := short
  consts := consts
  slots := slots
  ret := ret
  functions name i g found := by
    obtain ⟨f, first, there, head⟩ := find?_eq_some heads found
    have inside := (List.getElem?_eq_some_iff.1 there).1
    rw [same] at few ⊢
    rw [List.length_append] at few
    exact ⟨by omega, f, by simp [first], by rw [List.getElem?_append_left inside, there],
      head.params, head.ret⟩
  unnamed _ := find?_eq_none own

/-- What lowering the functions of a module achieves, behind those that are done. -/
structure ModuleOk (done fs : List FunctionDef) (consts consts' : Array Value)
    (gs : List Function) : Prop where
  pool : Pool consts'
  consts : consts.toList <+: consts'.toList
  own : ∀ f ∈ fs, OwnName f.name
  count : gs.length = fs.length
  placed : ∀ {module : List FunctionDef} {all : Array Value}, module = done ++ fs →
    (∀ f ∈ module, OwnName f.name) → consts'.toList <+: all.toList → module.length ≤ 65536 →
    (∀ g ∈ gs, g.code.size < 2 ^ 31) → List.Forall₂ (FunctionAt module all) fs gs

theorem functionsFrom_eq_ok (done : List FunctionDef) {fs : List FunctionDef}
    {lib lib' : Library} {consts consts' : Array Value} (pool : Pool consts)
    (floats : ∀ f ∈ fs, Stmt.FloatsList Signless f.body)
    (heads : List.Forall₂ HeadOf done lib.functions.toList)
    (h : functionsFrom lib consts fs = .ok (lib', consts')) :
    ∃ gs, lib'.functions.toList = lib.functions.toList ++ gs ∧
      ModuleOk done fs consts consts' gs := by
  induction fs generalizing lib consts done with
  | nil =>
      cases h
      exact ⟨[], (List.append_nil _).symm, pool, List.prefix_refl _, nofun, rfl,
        fun _ _ _ _ _ => .nil⟩
  | cons f rest ih =>
      rw [List.forall_mem_cons] at floats
      unfold functionsFrom at h
      cases lowered : function lib consts f with
      | error => rw [lowered] at h; cases h
      | ok r =>
          obtain ⟨g, consts₁⟩ := r
          rw [lowered] at h
          have ok := function_eq_ok pool floats.1 lowered
          have heads' : List.Forall₂ HeadOf (done ++ [f]) (lib.add g).functions.toList := by
            rw [Library.add, Array.toList_push]
            exact List.rel_append heads (.cons ⟨ok.name, ok.params, ok.ret⟩ .nil)
          obtain ⟨gs, functions, more⟩ := ih (done ++ [f]) ok.pool floats.2 heads' h
          refine ⟨g :: gs, ?_, more.pool, ok.consts.trans more.consts,
            List.forall_mem_cons.2 ⟨ok.own, more.own⟩, by simp [more.count], fun same own all few short => ?_⟩
          · rw [functions]
            simp [Library.add]
          · rw [List.forall_mem_cons] at short
            refine .cons (ok.placed fun d pooled slots => ?_)
              (more.placed (by simp [same]) own all few short.2)
            exact serves_of_heads heads same own few short.1 slots rfl
              (pooled ▸ more.consts.trans all)

/-- Each function of a module that is lowered was lowered at some point. -/
theorem function_of_functionsFrom {fs : List FunctionDef} {lib lib' : Library}
    {consts consts' : Array Value} (h : functionsFrom lib consts fs = .ok (lib', consts')) :
    ∀ f ∈ fs, ∃ lib consts r, function lib consts f = .ok r := by
  induction fs generalizing lib consts with
  | nil => exact nofun
  | cons f rest ih =>
      unfold functionsFrom at h
      cases lowered : function lib consts f with
      | error => rw [lowered] at h; cases h
      | ok r =>
          rw [lowered] at h
          exact List.forall_mem_cons.2 ⟨⟨lib, consts, r, lowered⟩, ih h⟩

/-- The first function that is tagged as a kernel. -/
theorem first_kernel {module : List FunctionDef} {k : FunctionDef} {target : Target}
    {rest : List (FunctionDef × Target)}
    (h : (module.filterMap fun f => f.kernel.map (f, ·)) = (k, target) :: rest) :
    k.kernel = some target ∧ ∃ i, module.findIdx? (·.kernel.isSome) = some i ∧
      module[i]? = some k ∧ module.find? (·.kernel.isSome) = some k := by
  induction module with
  | nil => cases h
  | cons f fs ih =>
      cases tag : f.kernel with
      | none =>
          rw [List.filterMap_cons_none (by rw [tag]; rfl)] at h
          obtain ⟨tagged, i, place, there, found⟩ := ih h
          refine ⟨tagged, i + 1, ?_, there, ?_⟩
          · simp [List.findIdx?_cons, tag, place]
          · simp [tag, found]
      | some t =>
          rw [List.filterMap_cons_some (by rw [tag]; rfl)] at h
          cases h
          exact ⟨tag, 0, by simp [List.findIdx?_cons, tag], rfl, by simp [tag]⟩

theorem theKernel_eq_ok {module : List FunctionDef} {k : FunctionDef} {target : Target}
    (h : theKernel module = .ok (k, target)) :
    (module.filterMap fun f => f.kernel.map (f, ·)) = [(k, target)] := by
  unfold theKernel at h
  split at h
  · cases h
  next one => cases h; exact one
  · cases h

end Lower

/-- A program whose functions stand for those of a module. -/
structure Compiled (module : List FunctionDef) (p : Program) : Prop where
  functions : List.Forall₂ (FunctionAt module p.consts) module p.functions.toList
  kernel : ∃ k, module.find? (·.kernel.isSome) = some k ∧ module[p.entry]? = some k ∧
    k.kernel = some p.target ∧ p.arguments = k.params.map fun q => ⟨q.name, q.ty, q.isStatic⟩

/-- A module that is lowered has one kernel, and its functions are lowered in their order. -/
theorem lowerModule_eq_ok {module : List FunctionDef} {p : Program}
    (h : lowerModule module = .ok p) : ∃ k target lib consts,
      theKernel module = .ok (k, target) ∧
      Lower.functionsFrom .empty #[] module = .ok (lib, consts) ∧
      p = ⟨lib.functions, consts, (module.findIdx? (·.kernel.isSome)).getD 0, target,
        k.params.map fun q => ⟨q.name, q.ty, q.isStatic⟩⟩ := by
  unfold lowerModule at h
  cases tagged : theKernel module with
  | error => rw [tagged] at h; cases h
  | ok kt =>
      rw [tagged] at h
      simp only [bind, Except.bind, pure, Except.pure] at h
      split at h
      · cases h
      next r lowered =>
        cases h
        exact ⟨kt.1, kt.2, r.1, r.2, rfl, lowered, rfl⟩

theorem compiled_of_lowerModule {module : List FunctionDef} {p : Program}
    (floats : ∀ f ∈ module, Stmt.FloatsList Signless f.body) (h : lowerModule module = .ok p)
    (few : p.functions.size ≤ 65536) (short : ∀ f ∈ p.functions, f.code.size < 2 ^ 31) :
    Compiled module p := by
  obtain ⟨k, target, lib, consts, tagged, lowered, rfl⟩ := lowerModule_eq_ok h
  obtain ⟨gs, functions, ok⟩ := Lower.functionsFrom_eq_ok [] .empty floats .nil lowered
  simp only [Library.empty, List.nil_append] at functions
  obtain ⟨tag, i, place, there, found⟩ := Lower.first_kernel (Lower.theKernel_eq_ok tagged)
  have count : module.length = lib.functions.size := by
    rw [← ok.count, ← functions, Array.length_toList]
  refine ⟨?_, k, found, by rw [place]; exact there, tag, rfl⟩
  rw [functions]
  refine ok.placed rfl ok.own (List.prefix_refl _) (count ▸ few) fun g hg => short g ?_
  rw [← functions] at hg
  exact Array.mem_toList_iff.1 hg

/-- Texts are compiled by lowering the module that is read from them. -/
theorem lowerModule_of_compile {source : String} {p : Program} (h : compile source = .ok p) :
    ∃ module, parseModule source = .ok module ∧ lowerModule module = .ok p := by
  unfold compile at h
  cases parsed : parseModule source with
  | error c => rw [parsed] at h; cases h
  | ok module =>
      have same : parseModule source >>= lowerModule = lowerModule module := by rw [parsed]; rfl
      rw [same] at h
      cases lowered : lowerModule module with
      | error => rw [lowered] at h; cases h
      | ok q => rw [lowered] at h; cases h; exact ⟨module, rfl, lowered⟩

/-- Arguments of a program have names of their own. -/
theorem distinct_of_compile {source : String} {p : Program} (h : compile source = .ok p) :
    (p.arguments.map (·.name)).Nodup := by
  obtain ⟨module, -, lowered⟩ := lowerModule_of_compile h
  obtain ⟨k, target, lib, consts, tagged, functions, rfl⟩ := lowerModule_eq_ok lowered
  obtain ⟨-, i, -, there, -⟩ := Lower.first_kernel (Lower.theKernel_eq_ok tagged)
  obtain ⟨_, _, ⟨g, _⟩, ran⟩ :=
    Lower.function_of_functionsFrom functions k (List.mem_of_getElem? there)
  obtain ⟨-, d, -, -, taken, -⟩ := Lower.function_ran ran
  have names := (Lower.names_of_parameters taken rfl).1
  rw [List.map_map]
  exact names

/-- A program that is compiled from a text stands for the module that was read from it. -/
theorem compiled_of_compile {source : String} {p : Program} (h : compile source = .ok p)
    (few : p.functions.size ≤ 65536) (short : ∀ f ∈ p.functions, f.code.size < 2 ^ 31) :
    ∃ module, parseModule source = .ok module ∧ Compiled module p := by
  obtain ⟨module, parsed, lowered⟩ := lowerModule_of_compile h
  exact ⟨module, parsed, compiled_of_lowerModule (floats_parseModule parsed) lowered few short⟩

end PixelKernel.Language
