import PixelKernel.Proofs.Code.Translation
import PixelKernel.Proofs.Machine.Runs

/-! # Steps of single instructions -/

namespace PixelKernel.Language

/-- Instructions other than calls, returns and comparisons. -/
def Op.staysLocal : Op → Bool
  | .builtin .. | .call .. | .ret | .retVoid | .missingReturn | .compare _ => false
  | _ => true

namespace Machine

variable {σ : Type} {p : Program} {host : Host σ} {g : Function} {pc : Nat} {slots : Array Value}
  {stack : List Value} {callers : List Frame} {s : σ} {v w a b : Value}

/-- Only a comparison can compare samplers. -/
theorem blind_of_op {o : Op} (h : g.code[pc]? = some o) (other : ∀ op, o ≠ .compare op) :
    ¬ ComparesSamplers ⟨⟨g, pc, slots, stack⟩, callers⟩ := by
  rintro ⟨op, _, _, _, found, -⟩
  exact other op (Option.some.inj (h.symm.trans found))

theorem step_of_local {o : Op} {f : Frame} (h : g.code[pc]? = some o) (stays : o.staysLocal = true)
    (hl : local? p pc ⟨g, pc + 1, slots, stack⟩ o = .ok f) :
    Does p host ⟨⟨g, pc, slots, stack⟩, callers⟩ s (.go ⟨f, callers⟩ s) := by
  refine ⟨?_, blind_of_op h fun op same => by rw [same] at stays; cases stays⟩
  unfold step
  dsimp only
  rw [h]
  cases o with
  | builtin | call | ret | retVoid | missingReturn | compare => cases stays
  | _ =>
      dsimp only
      rw [hl]

/-- Operands of a comparison are no samplers. -/
theorem step_compare {op : OrderOp} {c : Bool} (h : g.code[pc]? = some (.compare op))
    (value : a.ty ≠ .sampler) (hc : Value.compare op a b = .ok c) :
    Does p host ⟨⟨g, pc, slots, b :: a :: stack⟩, callers⟩ s
      (.go ⟨⟨g, pc + 1, slots, .bool c :: stack⟩, callers⟩ s) := by
  constructor
  · unfold step
    simp only [h, local?, onTwo, hc]
    rfl
  · rintro ⟨_, x, _, _, -, same⟩
    cases same
    exact value rfl

theorem step_const {i : UInt32} (h : g.code[pc]? = some (.const i))
    (hv : p.consts[i.toNat]? = some v) :
    Does p host ⟨⟨g, pc, slots, stack⟩, callers⟩ s
      (.go ⟨⟨g, pc + 1, slots, v :: stack⟩, callers⟩ s) :=
  step_of_local h rfl (by rw [local?, hv])

theorem step_load {slot : UInt16} (h : g.code[pc]? = some (.load slot))
    (hv : slots[slot.toNat]? = some v) :
    Does p host ⟨⟨g, pc, slots, stack⟩, callers⟩ s
      (.go ⟨⟨g, pc + 1, slots, v :: stack⟩, callers⟩ s) :=
  step_of_local h rfl (by rw [local?, hv])

theorem store_eq_ok {f : Value → Value → Except Trap Value} {slot : Nat}
    (hv : slots[slot]? = some a) (hw : f a v = .ok w) :
    store ⟨g, pc, slots, v :: stack⟩ slot f = .ok ⟨g, pc, slots.set! slot w, stack⟩ := by
  unfold store
  simp only [hv, hw]
  rfl

theorem step_store {slot : UInt16} (h : g.code[pc]? = some (.store slot))
    (hv : slots[slot.toNat]? = some a) :
    Does p host ⟨⟨g, pc, slots, v :: stack⟩, callers⟩ s
      (.go ⟨⟨g, pc + 1, slots.set! slot.toNat v, stack⟩, callers⟩ s) :=
  step_of_local h rfl (store_eq_ok hv rfl)

theorem step_storeLanes {slot : UInt16} {lanes : Selection}
    (h : g.code[pc]? = some (.storeLanes slot lanes)) (hv : slots[slot.toNat]? = some a)
    (hw : a.replace lanes v = .ok w) :
    Does p host ⟨⟨g, pc, slots, v :: stack⟩, callers⟩ s
      (.go ⟨⟨g, pc + 1, slots.set! slot.toNat w, stack⟩, callers⟩ s) :=
  step_of_local h rfl (store_eq_ok hv hw)

theorem onTop_eq_ok {f : Value → Except Trap Value} (hw : f v = .ok w) :
    onTop ⟨g, pc, slots, v :: stack⟩ f = .ok ⟨g, pc, slots, w :: stack⟩ := by
  unfold onTop
  simp only [hw]
  rfl

/-- An instruction that replaces the top of the stack. -/
theorem step_onTop {o : Op} {f : Value → Except Trap Value} (h : g.code[pc]? = some o)
    (stays : o.staysLocal = true) (means : ∀ fr, local? p pc fr o = onTop fr f)
    (hw : f v = .ok w) :
    Does p host ⟨⟨g, pc, slots, v :: stack⟩, callers⟩ s
      (.go ⟨⟨g, pc + 1, slots, w :: stack⟩, callers⟩ s) :=
  step_of_local h stays ((means _).trans (onTop_eq_ok hw))

/-- An instruction that replaces the two topmost entries. -/
theorem step_onTwo {o : Op} {f : Value → Value → Except Trap Value} (h : g.code[pc]? = some o)
    (stays : o.staysLocal = true) (means : ∀ fr, local? p pc fr o = onTwo fr f)
    (hw : f a b = .ok w) :
    Does p host ⟨⟨g, pc, slots, b :: a :: stack⟩, callers⟩ s
      (.go ⟨⟨g, pc + 1, slots, w :: stack⟩, callers⟩ s) := by
  refine step_of_local h stays ((means _).trans ?_)
  unfold onTwo
  simp only [hw]
  rfl

theorem step_dup (h : g.code[pc]? = some .dup) :
    Does p host ⟨⟨g, pc, slots, v :: stack⟩, callers⟩ s
      (.go ⟨⟨g, pc + 1, slots, v :: v :: stack⟩, callers⟩ s) :=
  step_of_local h rfl rfl

theorem step_pop (h : g.code[pc]? = some .pop) :
    Does p host ⟨⟨g, pc, slots, v :: stack⟩, callers⟩ s
      (.go ⟨⟨g, pc + 1, slots, stack⟩, callers⟩ s) :=
  step_of_local h rfl rfl

theorem step_toFloat (h : g.code[pc]? = some (.toFloat 0)) (hw : v.toFloat = .ok w) :
    Does p host ⟨⟨g, pc, slots, v :: stack⟩, callers⟩ s
      (.go ⟨⟨g, pc + 1, slots, w :: stack⟩, callers⟩ s) := by
  refine step_of_local h rfl ?_
  change (do return { (⟨g, pc + 1, slots, v :: stack⟩ : Frame) with stack := (← v.toFloat) :: stack })
    = _
  rw [hw]
  rfl

/-- The left operand lies below the right one. -/
theorem step_toFloat_below (h : g.code[pc]? = some (.toFloat 1)) (hw : a.toFloat = .ok w) :
    Does p host ⟨⟨g, pc, slots, b :: a :: stack⟩, callers⟩ s
      (.go ⟨⟨g, pc + 1, slots, b :: w :: stack⟩, callers⟩ s) := by
  refine step_of_local h rfl ?_
  change (do return { (⟨g, pc + 1, slots, b :: a :: stack⟩ : Frame) with
    stack := b :: (← a.toFloat) :: stack }) = _
  rw [hw]
  rfl

/-- Arguments are found on the stack with the last one on top. -/
theorem takeArgs_reverse (args : List Value) :
    takeArgs args.length (args.reverse ++ stack) = some (args, stack) := by
  unfold takeArgs
  rw [if_neg (by simp), List.take_left' (by simp), List.drop_left' (by simp), List.reverse_reverse]

theorem step_construct {width argc : UInt8} {parts : List Value}
    (h : g.code[pc]? = some (.construct width argc)) (count : argc.toNat = parts.length)
    (hw : Value.construct width.toNat parts = .ok w) :
    Does p host ⟨⟨g, pc, slots, parts.reverse ++ stack⟩, callers⟩ s
      (.go ⟨⟨g, pc + 1, slots, w :: stack⟩, callers⟩ s) := by
  refine step_of_local h rfl ?_
  rw [local?, count, takeArgs_reverse]
  dsimp only
  rw [hw]
  rfl

theorem step_jump {target : Nat} (h : JumpAt g.code pc target) :
    Does p host ⟨⟨g, pc, slots, stack⟩, callers⟩ s
      (.go ⟨⟨g, target, slots, stack⟩, callers⟩ s) := by
  obtain ⟨offset, h, lands⟩ := h
  refine step_of_local h rfl ?_
  rw [local?, lands]
  rfl

/-- A branch is taken for one value of the condition and passed for the other. -/
theorem branch_eq_ok {offset : Int32} {take c : Bool} {target site : Nat}
    (lands : Leads g.code site offset target) :
    branch ⟨g, pc, slots, .bool c :: stack⟩ site offset take =
      .ok ⟨g, if c = take then target else pc, slots, stack⟩ := by
  unfold branch
  dsimp only
  split
  next taken => rw [lands]; rfl
  next => rfl

theorem step_jumpIfFalse {offset : Int32} {c : Bool} {target : Nat}
    (h : g.code[pc]? = some (.jumpIfFalse offset)) (lands : Leads g.code pc offset target) :
    Does p host ⟨⟨g, pc, slots, .bool c :: stack⟩, callers⟩ s
      (.go ⟨⟨g, if c then pc + 1 else target, slots, stack⟩, callers⟩ s) := by
  refine step_of_local h rfl ?_
  rw [local?, branch_eq_ok lands]
  cases c <;> rfl

theorem step_jumpIfTrue {offset : Int32} {c : Bool} {target : Nat}
    (h : g.code[pc]? = some (.jumpIfTrue offset)) (lands : Leads g.code pc offset target) :
    Does p host ⟨⟨g, pc, slots, .bool c :: stack⟩, callers⟩ s
      (.go ⟨⟨g, if c then target else pc + 1, slots, stack⟩, callers⟩ s) := by
  refine step_of_local h rfl ?_
  rw [local?, branch_eq_ok lands]

theorem step_builtin {f : Builtin} {argc : UInt8} {args : List Value} {s' : σ} {r : Option Value}
    (h : g.code[pc]? = some (.builtin f argc)) (count : argc.toNat = args.length)
    (hr : callBuiltin host f args s = (.ok r, s')) :
    Does p host ⟨⟨g, pc, slots, args.reverse ++ stack⟩, callers⟩ s
      (.go ⟨⟨g, pc + 1, slots, r.toList ++ stack⟩, callers⟩ s') := by
  refine ⟨?_, blind_of_op h nofun⟩
  unfold step
  simp only [h, count, takeArgs_reverse, hr]

theorem step_builtin_error {f : Builtin} {argc : UInt8} {args : List Value} {s' : σ} {t : Trap}
    (h : g.code[pc]? = some (.builtin f argc)) (count : argc.toNat = args.length)
    (hr : callBuiltin host f args s = (.error t, s')) :
    Does p host ⟨⟨g, pc, slots, args.reverse ++ stack⟩, callers⟩ s (.stop (.error t) s') := by
  refine ⟨?_, blind_of_op h nofun⟩
  unfold step
  simp only [h, count, takeArgs_reverse, hr]

theorem step_call {i : UInt16} {argc : UInt8} {args : List Value} {m : Machine}
    (h : g.code[pc]? = some (.call i argc)) (count : argc.toNat = args.length)
    (entered : enter p i.toNat args (⟨g, pc + 1, slots, stack⟩ :: callers) = .ok m) :
    Does p host ⟨⟨g, pc, slots, args.reverse ++ stack⟩, callers⟩ s (.go m s) := by
  refine ⟨?_, blind_of_op h nofun⟩
  unfold step
  simp only [h, count, takeArgs_reverse, entered]

theorem step_call_error {i : UInt16} {argc : UInt8} {args : List Value} {t : Trap}
    (h : g.code[pc]? = some (.call i argc)) (count : argc.toNat = args.length)
    (refused : enter p i.toNat args (⟨g, pc + 1, slots, stack⟩ :: callers) = .error t) :
    Does p host ⟨⟨g, pc, slots, args.reverse ++ stack⟩, callers⟩ s (.stop (.error t) s) := by
  refine ⟨?_, blind_of_op h nofun⟩
  unfold step
  simp only [h, count, takeArgs_reverse, refused]

/-- A function that ends gives its result to the frame that waits for it. -/
theorem step_ret (h : g.code[pc]? = some .ret) :
    Does p host ⟨⟨g, pc, slots, v :: stack⟩, callers⟩ s (leave callers (some v) s) := by
  refine ⟨?_, blind_of_op h nofun⟩
  unfold step
  simp only [h]

theorem step_retVoid (h : g.code[pc]? = some .retVoid) :
    Does p host ⟨⟨g, pc, slots, stack⟩, callers⟩ s (leave callers none s) := by
  refine ⟨?_, blind_of_op h nofun⟩
  unfold step
  simp only [h]

theorem step_missingReturn (h : g.code[pc]? = some .missingReturn) :
    Does p host ⟨⟨g, pc, slots, stack⟩, callers⟩ s (.stop (.error (.missingReturn g.name)) s) := by
  refine ⟨?_, blind_of_op h nofun⟩
  unfold step
  simp only [h]

end Machine
end PixelKernel.Language
