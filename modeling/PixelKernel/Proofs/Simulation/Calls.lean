import PixelKernel.Proofs.Simulation.Setting

/-! # Runs of calls

Arguments are evaluated from left to right, each made to fit before the next one, and lie on
the stack with the last one on top.
-/

namespace PixelKernel.Language

open Meaning (Env Eval Context)

variable {σ : Type}

namespace Setting

variable {S : Setting σ} {scopes : List Scope} {pc pc' pc₁ pc₂ : Nat} {name : String}
  {found wanted : List Ty} {t w : Ty} {x : Eval σ (List Value)}

/-- Values that were made to fit. -/
def becomes (wanted : List Ty) (vs : List Value) : List Value := List.zipWith become wanted vs

/-- The code from `pc` to `pc'` leaves arguments on the stack. -/
def Passes (S : Setting σ) (scopes : List Scope) (pc : Nat) (x : Eval σ (List Value))
    (found wanted : List Ty) (pc' : Nat) : Prop :=
  S.Follows scopes pc x fun stack (vs, env) m =>
    vs.map Value.ty = found ∧ S.Stands scopes pc' ((becomes wanted vs).reverse ++ stack) env m

theorem Passes.nil : S.Passes scopes pc (return []) [] [] pc :=
  fun _ _ _ _ stands => .pure ⟨rfl, stands⟩

theorem Passes.cons {y : Eval σ (Option Value)} (value : t ≠ .void)
    (head : S.Evaluates scopes pc y t pc₁) (fit : FitAt S.site.code pc₁ t w pc₂)
    (tail : S.Passes scopes pc₂ x found wanted pc') :
    S.Passes scopes pc (return (← Meaning.operand y) :: (← x)) (t :: found) (w :: wanted) pc' := by
  intro stack env m s stands
  refine (head.operand value stands).bind fun v env₁ s₁ m₁ ⟨vt, stands₁⟩ => ?_
  obtain ⟨-, n, m₂, reaches, stands₂⟩ := fit_follows fit vt stands₁
  refine .steps reaches ((tail stands₂).bind fun vs env₃ s₃ m₃ ⟨typed, stands₃⟩ => ?_)
  refine .pure ⟨by rw [List.map_cons, vt, typed], ?_⟩
  rw [becomes, List.zipWith_cons_cons, List.reverse_cons, List.append_assoc]
  exact stands₃

/-! ## What is called -/

theorem becomes_params {params : List Param} {vs : List Value}
    (fits : List.Forall₂ Fits (vs.map Value.ty) (params.map (·.ty.operand))) :
    List.zipWith (fun p v => Meaning.fit p.ty v) params vs =
      becomes (params.map (·.ty.operand)) vs := by
  induction params generalizing vs with
  | nil => rfl
  | cons p params ih =>
      cases vs with
      | nil => rfl
      | cons v vs =>
          obtain ⟨head, tail⟩ := List.forall₂_cons.1 fits
          rw [becomes, List.map_cons, List.zipWith_cons_cons, List.zipWith_cons_cons, ih tail,
            ← fit_operand, fit_eq_become head]
          rfl

theorem becomes_ty {vs : List Value} (fits : List.Forall₂ Fits (vs.map Value.ty) wanted) :
    (becomes wanted vs).map Value.ty = wanted := by
  induction wanted generalizing vs with
  | nil => rfl
  | cons w wanted ih =>
      cases vs with
      | nil => cases fits
      | cons v vs =>
          obtain ⟨head, tail⟩ := List.forall₂_cons.1 fits
          rw [becomes, List.zipWith_cons_cons, List.map_cons]
          congr 1
          · unfold become
            rcases head with same | ⟨int, rfl⟩
            · rw [if_pos same, same]
            · obtain ⟨n, rfl⟩ := Value.int_of_ty int
              rfl
          · exact ih tail

theorem part_of_partFits {v : Value} (h : PartFits v.ty w) :
    become w v = Meaning.part v ∧ (Meaning.part v).ty = w ∧ w.lanes?.isSome := by
  rcases h with ⟨rfl, lanes⟩ | ⟨number, rfl⟩
  · rw [become, if_pos rfl]
    cases v <;> first | exact ⟨rfl, rfl, lanes⟩ | cases lanes
  · cases v <;> first | exact ⟨rfl, rfl, rfl⟩ | (rcases number with ⟨⟨⟩⟩ | ⟨⟨⟩⟩)

theorem becomes_parts {vs : List Value} (fits : List.Forall₂ PartFits (vs.map Value.ty) wanted) :
    becomes wanted vs = vs.map Meaning.part ∧ (vs.map Meaning.part).map Value.ty = wanted ∧
      ∀ v ∈ vs.map Meaning.part, v.ty.lanes?.isSome := by
  induction vs generalizing wanted with
  | nil =>
      cases fits
      exact ⟨rfl, rfl, nofun⟩
  | cons v vs ih =>
      cases fits with
      | cons head tail =>
          obtain ⟨made, typed, lanes⟩ := part_of_partFits head
          obtain ⟨mades, typeds, laneses⟩ := ih tail
          refine ⟨?_, ?_, List.forall_mem_cons.2 ⟨typed ▸ lanes, laneses⟩⟩
          · rw [becomes, List.zipWith_cons_cons, made, List.map_cons, ← mades]
            rfl
          · rw [List.map_cons, List.map_cons, typed, typeds]

theorem widen_eq_become (v : Value) : become (Meaning.widenTy v.ty) v = Meaning.widen v ∧
    (Meaning.widen v).ty = Meaning.widenTy v.ty := by
  cases v <;> exact ⟨rfl, rfl⟩

theorem becomes_widened (vs : List Value) :
    becomes ((vs.map Value.ty).map Meaning.widenTy) vs = vs.map Meaning.widen := by
  induction vs with
  | nil => rfl
  | cons v vs ih =>
      rw [becomes, List.map_cons, List.map_cons, List.zipWith_cons_cons, (widen_eq_become v).1,
        List.map_cons, ← ih]
      rfl

theorem map_widen_ty (vs : List Value) :
    (vs.map Meaning.widen).map Value.ty = (vs.map Value.ty).map Meaning.widenTy := by
  rw [List.map_map, List.map_map]
  exact List.map_congr_left fun v _ => (widen_eq_become v).2

theorem wanted_of_mem {R : Ty → Ty → Prop} (h : List.Forall₂ R found wanted) (mem : t ∈ found) :
    ∃ w ∈ wanted, R t w := by
  induction h with
  | nil => cases mem
  | cons head _ ih =>
      rcases List.mem_cons.1 mem with rfl | mem
      · exact ⟨_, List.mem_cons_self, head⟩
      · obtain ⟨w, there, fit⟩ := ih mem
        exact ⟨w, List.mem_cons_of_mem _ there, fit⟩

/-- Arguments have values. -/
theorem values_of_callAt (h : CallAt S.site pc name found wanted t) : .void ∉ found := by
  intro mem
  cases h with
  | function named at_ index count fits =>
      obtain ⟨w, there, fit⟩ := wanted_of_mem fits mem
      obtain ⟨p, param, rfl⟩ := List.mem_map.1 there
      refine fits_ne_void fit (fun void => ?_) rfl
      exact S.params _ (List.mem_of_find?_eq_some named) p param (Ty.operand_eq_void.1 void)
  | conversion _ _ scalar =>
      obtain rfl := List.mem_singleton.1 mem
      simp at scalar
  | vector _ _ _ _ fits =>
      obtain ⟨w, -, ⟨rfl, lanes⟩ | ⟨number, -⟩⟩ := wanted_of_mem fits mem
      · cases lanes
      · simp at number
  | builtin _ _ _ _ named =>
      exact Builtin.void_not_mem_of_result? (Builtin.result?_of_resolve? named)
        (List.mem_map_of_mem mem)

theorem callFunction_follows {f : FunctionDef} {args : List Value} {m : Machine} {s : σ}
    {Q : Option Value → Machine → Prop} (env : Env)
    (h : Simulates S.program S.cx.host S.cx.fuel (S.cx.call f args s) m s Q) :
    Simulates S.program S.cx.host S.cx.fuel (Meaning.callFunction S.cx f args env s) m s
      fun (r, env') m => env' = env ∧ Q r m := by
  unfold Meaning.callFunction
  match o : S.cx.call f args s with
  | none => rw [o] at h; exact h
  | some (.error e, s') => rw [o] at h; exact h
  | some (.ok r, s') =>
      rw [o] at h
      obtain ⟨n, m', reaches, post⟩ := h
      exact ⟨n, m', reaches, rfl, post⟩

theorem callBuiltin_follows {b : Builtin} {args : List Value}
    (typed : b.result? (args.map Value.ty) = some t)
    (op : S.site.code[pc]? = some (.builtin b (.ofNat args.length))) (count : args.length < 256)
    {stack : List Value} {env : Env} {m : Machine} {s : σ}
    (stands : S.Stands scopes pc (args.reverse ++ stack) env m) :
    Simulates S.program S.cx.host S.cx.fuel (Meaning.callBuiltin S.cx b args env s) m s
      fun (r, env) m => HasTy r t ∧ S.Stands scopes (pc + 1) (r.toList ++ stack) env m := by
  obtain ⟨slots, rfl, size, mirrors⟩ := stands
  have argc : (UInt8.ofNat args.length).toNat = args.length := UInt8.toNat_ofNat_of_lt' count
  unfold Meaning.callBuiltin
  rcases Machine.callBuiltin_of_ty S.cx.host typed s with
    ⟨r, s', made, rt⟩ | ⟨e, s', failed, refused⟩
  · rw [made]
    exact ⟨1, _, .one (Machine.step_builtin op argc made), rt, slots, rfl, size, mirrors⟩
  · rw [failed]
    exact ⟨0, e, .host refused, _, _, .refl, Machine.step_builtin_error op argc failed⟩

theorem conversion_of_ty {o : Op} {v : Value} (named : Lower.conversion? name = some (o, t))
    (scalar : v.ty = .int ∨ v.ty = .float ∨ v.ty = .bool) :
    ∃ f w, Meaning.conversion? name = some f ∧ f v = .ok w ∧ w.ty = t ∧
      ∀ {pc : Nat} {slots stack s}, S.site.code[pc]? = some o →
        Machine.Does S.program S.cx.host ⟨⟨S.function, pc, slots, v :: stack⟩, S.callers⟩ s
          (.go ⟨⟨S.function, pc + 1, slots, w :: stack⟩, S.callers⟩ s) := by
  unfold Lower.conversion? at named
  split at named
  · cases named
    obtain ⟨x, made⟩ := Value.toFloat_of_ty scalar
    exact ⟨_, _, rfl, made, rfl, fun op => Machine.step_toFloat op made⟩
  · cases named
    obtain ⟨x, made⟩ := Value.toInt_of_ty scalar
    exact ⟨_, _, rfl, made, rfl, fun op => Machine.step_onTop op rfl (fun _ => rfl) made⟩
  · cases named
    obtain ⟨x, made⟩ := Value.toBool_of_ty scalar
    exact ⟨_, _, rfl, made, rfl, fun op => Machine.step_onTop op rfl (fun _ => rfl) made⟩
  · cases named

theorem conversion?_eq_none (h : Lower.conversion? name = none) :
    Meaning.conversion? name = none := by
  unfold Lower.conversion? at h
  split at h
  · cases h
  · cases h
  · cases h
  · unfold Meaning.conversion?
    split <;> first | contradiction | rfl

theorem call_eq_vector {cx : Context σ} {width : Nat} (vs : List Value)
    (unnamed : cx.module.find? (·.name == name) = none)
    (notConversion : Lower.conversion? name = none) (named : Lower.vectorWidth? name = some width) :
    Meaning.call cx name vs = do
      return some (← Meaning.ofExcept (Value.construct width (vs.map Meaning.part))) := by
  unfold Meaning.call
  rw [unnamed, conversion?_eq_none notConversion, named]

theorem call_eq_builtin {cx : Context σ} {vs : List Value} {b : Builtin}
    (unnamed : cx.module.find? (·.name == name) = none)
    (notConversion : Lower.conversion? name = none) (notVector : Lower.vectorWidth? name = none)
    (named : Builtin.resolve? name ((vs.map Meaning.widen).map Value.ty) = some (b, t)) :
    Meaning.call cx name vs = Meaning.callBuiltin cx b (vs.map Meaning.widen) := by
  unfold Meaning.call
  rw [unnamed, conversion?_eq_none notConversion, notVector, named]

theorem vectorWidth?_cases {width : Nat} (named : Lower.vectorWidth? name = some width) :
    width = 2 ∨ width = 3 ∨ width = 4 := by
  unfold Lower.vectorWidth? at named
  split at named <;> cases named <;> simp

/-- What is accepted as parts of a vector makes one. -/
theorem construct_of_finish {width : Nat} {parts : List Value} {o : Op}
    (named : Lower.vectorWidth? name = some width) (lanes : ∀ v ∈ parts, v.ty.lanes?.isSome)
    (result : Lower.finishVector name width (parts.map Value.ty) = .ok (o, t)) :
    o = .construct (.ofNat width) (.ofNat parts.length) ∧
      ∃ w, Value.construct width parts = .ok w ∧ w.ty = t := by
  have made := Value.construct_of_ty lanes (finishVector_ty named result)
  unfold Lower.finishVector at result
  rw [List.map_map, List.length_map] at result
  dsimp only at result
  split at result
  · cases result
  · next total =>
    cases result
    refine ⟨rfl, made ?_⟩
    by_contra neither
    rw [not_or] at neither
    exact total ⟨neither.1, fun one => neither.2 one.2⟩

theorem call_follows (args : S.Passes scopes pc x found wanted pc₁)
    (call : CallAt S.site pc₁ name found wanted t) :
    S.Evaluates scopes pc (do Meaning.call S.cx name (← x)) t (pc₁ + 1) := by
  intro stack env m s stands
  refine (args stands).bind fun vs env₁ s₁ m₁ ⟨typed, stands₁⟩ => ?_
  cases call with
  | @function _ i f named at_ index count fits op =>
      subst typed
      obtain ⟨slots, rfl, size, mirrors⟩ := stands₁
      unfold Meaning.call
      rw [show S.cx.module.find? (·.name == name) = some f from named]
      dsimp only
      rw [becomes_params fits]
      refine (callFunction_follows env₁ (S.calls at_ index count (becomes_ty fits) op)).imp ?_
      rintro ⟨r, env₂⟩ m₂ ⟨rfl, rt, rfl⟩
      exact ⟨rt, slots, rfl, size, mirrors⟩
  | conversion unnamed named scalar op =>
      obtain ⟨v, rfl, rfl⟩ := List.map_eq_singleton_iff.1 typed
      obtain ⟨f, w, means, made, wt, step⟩ := conversion_of_ty named scalar
      obtain ⟨slots, rfl, size, mirrors⟩ := stands₁
      unfold Meaning.call
      rw [show S.cx.module.find? (·.name == name) = none from unnamed, means]
      refine .known (by rw [made]; rfl) (.step ?_ (.pure ⟨wt, slots, rfl, size, mirrors⟩))
      rw [becomes, List.zipWith_cons_cons, become, if_pos rfl]
      exact step op
  | @vector _ _ width _ _ unnamed notConversion named count fits result op =>
      subst typed
      obtain ⟨parts, typeds, lanes⟩ := becomes_parts fits
      obtain ⟨slots, rfl, size, mirrors⟩ := stands₁
      rw [call_eq_vector vs unnamed notConversion named, parts]
      obtain ⟨rfl, w, made, wt⟩ := construct_of_finish named lanes (typeds.symm ▸ result)
      have narrow : (UInt8.ofNat width).toNat = width := by
        rcases vectorWidth?_cases named with rfl | rfl | rfl <;> rfl
      have argc : (UInt8.ofNat (vs.map Meaning.part).length).toNat = (vs.map Meaning.part).length := by
        rw [← typeds, List.length_map] at count
        exact UInt8.toNat_ofNat_of_lt' count
      refine .known (by rw [made]; rfl) (.step (Machine.step_construct op argc ?_)
        (.pure ⟨wt, slots, rfl, size, mirrors⟩))
      rw [narrow, made]
  | @builtin _ b _ unnamed notConversion notVector count named op =>
      subst typed
      have resolved : Builtin.resolve? name ((vs.map Meaning.widen).map Value.ty) = some (b, t) := by
        rw [map_widen_ty]
        exact named
      rw [call_eq_builtin unnamed notConversion notVector resolved]
      rw [show (vs.map Value.ty).map (fun t => if t = .int then .float else t) =
        (vs.map Value.ty).map Meaning.widenTy from rfl, becomes_widened] at stands₁
      refine callBuiltin_follows (Builtin.result?_of_resolve? resolved) ?_ ?_ stands₁
      · simpa using op
      · simpa using count

end Setting

end PixelKernel.Language
