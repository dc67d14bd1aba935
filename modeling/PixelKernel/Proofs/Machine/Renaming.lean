import Mathlib.Data.List.Forall2
import PixelKernel.Proofs.Machine.Runs
import PixelKernel.Proofs.Machine.Values

/-! # Samplers under other numbers

A machine hands samplers on to its host and compares them, and does nothing else with their
numbers. So it runs alike when they are numbered otherwise, as long as it gets the same answers
about them, and the same samplers stay the same if it compares any.
-/

namespace PixelKernel.Language

/-! ## Values -/

namespace Value

/-- The value without the number of the sampler, if it is one. -/
def blur : Value → Value
  | sampler _ => sampler none
  | v => v

/-- Anything but a sampler. -/
def Plain (v : Value) : Prop := v.ty ≠ .sampler

@[simp] theorem lanes?_blur (v : Value) : v.blur.lanes? = v.lanes? := by cases v <;> rfl

@[simp] theorem colour?_blur (v : Value) : v.blur.colour? = v.colour? := by cases v <;> rfl

@[simp] theorem float?_blur (v : Value) : v.blur.float? = v.float? := by cases v <;> rfl

@[simp] theorem point?_blur (v : Value) : v.blur.point? = v.point? := by cases v <;> rfl

@[simp] theorem map_blur (f : Float32 → Float32) (v : Value) : v.blur.map f = v.map f := by
  simp [map]

@[simp] theorem zip_blur (f : Float32 → Float32 → Float32) (a b : Value) :
    zip f a.blur b.blur = zip f a b := by
  simp [zip]

@[simp] theorem zip3_blur (f : Float32 → Float32 → Float32 → Float32) (a b c : Value) :
    zip3 f a.blur b.blur c.blur = zip3 f a b c := by
  simp [zip3]

@[simp] theorem dot_blur (a b : Value) : a.blur.dot b.blur = a.dot b := by
  simp [dot]

@[simp] theorem arith_blur (op : ArithOp) (a b : Value) :
    arith op a.blur b.blur = arith op a b := by
  cases a <;> cases b <;> rfl

@[simp] theorem toFloat_blur (v : Value) : v.blur.toFloat = v.toFloat := by cases v <;> rfl

@[simp] theorem toInt_blur (v : Value) : v.blur.toInt = v.toInt := by cases v <;> rfl

@[simp] theorem toBool_blur (v : Value) : v.blur.toBool = v.toBool := by cases v <;> rfl

@[simp] theorem neg_blur (v : Value) : v.blur.neg = v.neg := by cases v <;> rfl

@[simp] theorem not_blur (v : Value) : v.blur.not = v.not := by cases v <;> rfl

@[simp] theorem select_blur (lanes : Selection) (v : Value) : v.blur.select lanes = v.select lanes := by
  simp [select]

@[simp] theorem replace_blur (lanes : Selection) (v w : Value) :
    v.blur.replace lanes w.blur = v.replace lanes w := by
  simp [replace]

theorem construct_blur (width : Nat) (parts : List Value) :
    construct width (parts.map blur) = construct width parts := by
  have lanes : (parts.map blur).mapM lanes? = parts.mapM lanes? := by
    rw [List.mapM_map]
    exact congrArg (parts.mapM ·) (funext lanes?_blur)
  rw [construct, lanes, construct]

/-! What is computed is no sampler. -/

theorem plain_ofLanes? {xs : List Float32} {v : Value} (h : ofLanes? xs = some v) : v.Plain := by
  unfold ofLanes? at h
  split at h <;> cases h <;> exact nofun

theorem plain_map {f : Float32 → Float32} {a v : Value} (h : a.map f = some v) : v.Plain := by
  obtain ⟨_, -, made⟩ := Option.bind_eq_some_iff.1 h
  exact plain_ofLanes? made

theorem plain_zip {f : Float32 → Float32 → Float32} {a b v : Value} (h : zip f a b = some v) :
    v.Plain := by
  unfold zip at h
  simp only [Option.bind_eq_bind, Option.bind_eq_some_iff] at h
  obtain ⟨_, -, _, -, _, -, _, -, made⟩ := h
  exact plain_ofLanes? made

theorem plain_zip3 {f : Float32 → Float32 → Float32 → Float32} {a b c v : Value}
    (h : zip3 f a b c = some v) : v.Plain := by
  unfold zip3 at h
  simp only [Option.bind_eq_bind, Option.bind_eq_some_iff] at h
  obtain ⟨_, -, _, -, _, -, _, -, _, -, _, -, made⟩ := h
  exact plain_ofLanes? made

theorem plain_arith {op : ArithOp} {a b v : Value} (h : arith op a b = .ok v) : v.Plain := by
  unfold arith at h
  split at h
  · cases h; exact nofun
  · dsimp only at h
    split at h
    · next made => cases h; exact plain_zip made
    · cases h

theorem plain_toFloat {a v : Value} (h : a.toFloat = .ok v) : v.Plain := by
  cases a <;> cases h <;> exact nofun

theorem plain_toInt {a v : Value} (h : a.toInt = .ok v) : v.Plain := by
  cases a <;> cases h <;> exact nofun

theorem plain_toBool {a v : Value} (h : a.toBool = .ok v) : v.Plain := by
  cases a <;> cases h <;> exact nofun

theorem plain_neg {a v : Value} (h : a.neg = .ok v) : v.Plain := by
  unfold neg at h
  split at h
  · cases h; exact nofun
  · split at h
    · next made => cases h; exact plain_map made
    · cases h

theorem plain_not {a v : Value} (h : a.not = .ok v) : v.Plain := by
  cases a <;> cases h
  exact nofun

theorem plain_select {lanes : Selection} {a v : Value} (h : a.select lanes = .ok v) : v.Plain := by
  unfold select at h
  split at h
  · cases h
  · split at h
    · next made =>
      cases h
      obtain ⟨_, -, made⟩ := Option.bind_eq_some_iff.1 made
      exact plain_ofLanes? made
    · cases h

theorem plain_replace {lanes : Selection} {a b v : Value} (h : a.replace lanes b = .ok v) :
    v.Plain := by
  unfold replace at h
  split at h
  · cases h
  · cases h
  · dsimp only at h
    split at h
    · next made => cases h; exact plain_ofLanes? made
    · cases h

theorem plain_construct {width : Nat} {parts : List Value} {v : Value}
    (h : construct width parts = .ok v) : v.Plain := by
  unfold construct at h
  split at h
  · cases h
  · next lanes _ =>
    dsimp only at h
    generalize (if lanes.flatten.length = 1 then _ else lanes.flatten) = lanes at h
    split at h
    · cases h
    · split at h
      · next made => cases h; exact plain_ofLanes? made
      · cases h

end Value

namespace Builtin

@[simp] theorem crossed_blur (a b : Value) : crossed a.blur b.blur = crossed a b := by
  cases a <;> cases b <;> rfl

@[simp] theorem unitVector_blur (v : Value) : unitVector v.blur = unitVector v := by
  simp [unitVector]

/-- Builtins that need only their arguments do not look at samplers. -/
theorem evaluate?_blur (f : Builtin) (args : List Value) :
    f.evaluate? (args.map .blur) = f.evaluate? args := by
  match args with
  | [] => cases f <;> rfl
  | [x] => cases f <;> simp [evaluate?]
  | [x, y] => cases f <;> simp [evaluate?]
  | [x, y, z] => cases f <;> simp [evaluate?]
  | _ :: _ :: _ :: _ :: _ => cases f <;> rfl

theorem plain_of_map {α : Type} {o : Option α} {f : α → Value} (plain : ∀ a, (f a).Plain)
    {v : Value} (h : o.map f = some v) : v.Plain := by
  obtain ⟨a, -, rfl⟩ := Option.map_eq_some_iff.1 h
  exact plain a

theorem plain_crossed {a b v : Value} (h : crossed a b = some v) : v.Plain := by
  unfold crossed at h
  split at h <;> cases h
  exact nofun

theorem plain_unitVector {a v : Value} (h : unitVector a = some v) : v.Plain := by
  unfold unitVector at h
  obtain ⟨_, -, made⟩ := Option.bind_eq_some_iff.1 h
  dsimp only at made
  split at made <;> exact Value.plain_map made

theorem plain_distance {a b v : Value} (h : distance.evaluate? [a, b] = some v) : v.Plain := by
  simp only [evaluate?, Option.bind_eq_bind, Option.bind_eq_some_iff] at h
  obtain ⟨_, -, _, -, made⟩ := h
  cases made
  exact nofun

theorem plain_evaluate? {f : Builtin} {args : List Value} {v : Value}
    (h : f.evaluate? args = some v) : v.Plain := by
  by_cases far : ∃ a b, f = .distance ∧ args = [a, b]
  · obtain ⟨a, b, rfl, rfl⟩ := far
    exact plain_distance h
  unfold evaluate? at h
  split at h
  all_goals first
    | exact Value.plain_map h
    | exact Value.plain_zip h
    | exact Value.plain_zip3 h
    | exact plain_crossed h
    | exact plain_unitVector h
    | exact plain_of_map (by intro a; exact nofun) h
    | exact absurd ⟨_, _, rfl, rfl⟩ far
    | cases h

end Builtin

/-! ## The same but for the numbers -/

/-- The same value, where a sampler may have another number. -/
inductive Value.Renamed (r : Option Nat → Option Nat → Prop) : Value → Value → Prop where
  | plain {v} (plain : v.Plain) : Renamed r v v
  | sampler {a b} (same : r a b) : Renamed r (.sampler a) (.sampler b)

/-- Different samplers have different numbers, either way. -/
def Faithful (r : Option Nat → Option Nat → Prop) : Prop :=
  ∀ {a b a' b'}, r a a' → r b b' → (a = b ↔ a' = b')

/-- Hosts that answer alike about samplers that are the same. -/
structure Host.Renamed {σ : Type} (r : Option Nat → Option Nat → Prop) (host host' : Host σ) :
    Prop where
  unbound : r none none
  destination : host.destination = host'.destination
  sample : ∀ {a b}, r a b → host.sample a = host'.sample b
  transform : ∀ {a b}, r a b → host.transform a = host'.transform b
  extent : ∀ {a b}, r a b → host.extent a = host'.extent b
  emit : host.emit = host'.emit

/-- Results that correspond, or the same failure. -/
inductive Corresponds {ε α : Type} (R : α → α → Prop) : Except ε α → Except ε α → Prop where
  | ok {a b} (h : R a b) : Corresponds R (.ok a) (.ok b)
  | error (e : ε) : Corresponds R (.error e) (.error e)

theorem Corresponds.imp {ε α : Type} {R Q : α → α → Prop} {x y : Except ε α}
    (h : Corresponds R x y) (weaker : ∀ a b, R a b → Q a b) : Corresponds Q x y := by
  cases h with
  | ok h => exact .ok (weaker _ _ h)
  | error e => exact .error e

theorem Corresponds.bind {ε α β : Type} {R : α → α → Prop} {Q : β → β → Prop}
    {x y : Except ε α} {f g : α → Except ε β} (h : Corresponds R x y)
    (next : ∀ a b, R a b → Corresponds Q (f a) (g b)) : Corresponds Q (x >>= f) (y >>= g) := by
  cases h with
  | ok h => exact next _ _ h
  | error e => exact .error e

namespace Value

variable {r : Option Nat → Option Nat → Prop} {a a' b b' : Value}

theorem Renamed.blur_eq (h : Renamed r a b) : a.blur = b.blur := by
  cases h <;> rfl

theorem renamed_blur {vs ws : List Value} (h : List.Forall₂ (Renamed r) vs ws) :
    vs.map blur = ws.map blur := by
  induction h with
  | nil => rfl
  | cons first _ ih => rw [List.map_cons, List.map_cons, first.blur_eq, ih]

/-- What does not look at numbers and gives no samplers gives the same. -/
theorem corresponds_of_blur {f : Value → Except Trap Value} (blind : ∀ v, f v.blur = f v)
    (plain : ∀ {v w}, f v = .ok w → w.Plain) (h : Renamed r a b) :
    Corresponds (Renamed r) (f a) (f b) := by
  have same : f a = f b := by rw [← blind a, h.blur_eq, blind]
  rw [same]
  cases made : f b with
  | error e => exact .error e
  | ok w => exact .ok (.plain (plain made))

theorem corresponds_of_blur₂ {f : Value → Value → Except Trap Value}
    (blind : ∀ v w, f v.blur w.blur = f v w) (plain : ∀ {v w x}, f v w = .ok x → x.Plain)
    (ha : Renamed r a a') (hb : Renamed r b b') : Corresponds (Renamed r) (f a b) (f a' b') := by
  have same : f a b = f a' b' := by rw [← blind a, ha.blur_eq, hb.blur_eq, blind]
  rw [same]
  cases made : f a' b' with
  | error e => exact .error e
  | ok w => exact .ok (.plain (plain made))

/-- Comparing two samplers is the one thing that looks at their numbers. -/
theorem compare_renamed (op : OrderOp) (ha : Renamed r a a') (hb : Renamed r b b')
    (faithful : Faithful r ∨ ¬ (a.ty = .sampler ∧ b.ty = .sampler)) :
    compare op a b = compare op a' b' := by
  cases ha with
  | plain pa =>
      cases hb with
      | plain => rfl
      | sampler => cases a <;> cases op <;> first | rfl | exact absurd rfl pa
  | sampler ra =>
      cases hb with
      | plain pb => cases b <;> cases op <;> first | rfl | exact absurd rfl pb
      | sampler rb =>
          have same := faithful.resolve_right (not_not_intro ⟨rfl, rfl⟩) ra rb
          cases op with
          | eq | ne => simp only [compare, Value.same, Bool.beq_eq_decide_eq, same]
          | lt | le | gt | ge => rfl

end Value

/-! ## Frames and machines -/

/-- The same place in the same function, with the same values but for samplers' numbers. -/
structure Frame.Renamed (r : Option Nat → Option Nat → Prop) (f f' : Frame) : Prop where
  function : f.function = f'.function
  pc : f.pc = f'.pc
  slots : List.Forall₂ (Value.Renamed r) f.slots.toList f'.slots.toList
  stack : List.Forall₂ (Value.Renamed r) f.stack f'.stack

structure Machine.Renamed (r : Option Nat → Option Nat → Prop) (m m' : Machine) : Prop where
  frame : m.frame.Renamed r m'.frame
  callers : List.Forall₂ (Frame.Renamed r) m.callers m'.callers

theorem Frame.Renamed.stacked {r : Option Nat → Option Nat → Prop} {f f' : Frame}
    (h : f.Renamed r f') {stack stack' : List Value}
    (same : List.Forall₂ (Value.Renamed r) stack stack') :
    { f with stack }.Renamed r { f' with stack := stack' } :=
  ⟨h.function, h.pc, h.slots, same⟩

namespace Machine

variable {σ : Type} {r : Option Nat → Option Nat → Prop} {p : Program} {host host' : Host σ}
  {f f' : Frame}

theorem takeArgs_renamed (n : Nat) {vs ws : List Value} (h : List.Forall₂ (Value.Renamed r) vs ws) :
    (takeArgs n vs = none ∧ takeArgs n ws = none) ∨ ∃ args stack args' stack',
      takeArgs n vs = some (args, stack) ∧ takeArgs n ws = some (args', stack') ∧
        List.Forall₂ (Value.Renamed r) args args' ∧ List.Forall₂ (Value.Renamed r) stack stack' := by
  unfold takeArgs
  rw [h.length_eq]
  by_cases few : ws.length < n
  · exact .inl ⟨if_pos few, if_pos few⟩
  · exact .inr ⟨_, _, _, _, if_neg few, if_neg few,
      List.rel_reverse (List.forall₂_take n h), List.forall₂_drop n h⟩

/-- The same slot holds the same value. -/
theorem slot_renamed (h : f.Renamed r f') (i : Nat) :
    (f.slots[i]? = none ∧ f'.slots[i]? = none) ∨
      ∃ v w, f.slots[i]? = some v ∧ f'.slots[i]? = some w ∧ v.Renamed r w := by
  rw [← Array.getElem?_toList, ← Array.getElem?_toList]
  by_cases inside : i < f.slots.toList.length
  · have inside' : i < f'.slots.toList.length := h.slots.length_eq ▸ inside
    exact .inr ⟨_, _, List.getElem?_eq_getElem inside, List.getElem?_eq_getElem inside',
      h.slots.get inside inside'⟩
  · have outside := Nat.not_lt.1 inside
    have outside' : f'.slots.toList.length ≤ i := h.slots.length_eq ▸ outside
    exact .inl ⟨List.getElem?_eq_none outside, List.getElem?_eq_none outside'⟩

theorem forall₂_set {vs ws : List Value} (h : List.Forall₂ (Value.Renamed r) vs ws) {i : Nat}
    {v w : Value} (same : v.Renamed r w) :
    List.Forall₂ (Value.Renamed r) (vs.set i v) (ws.set i w) := by
  induction h generalizing i with
  | nil => exact .nil
  | cons first rest ih =>
      cases i with
      | zero => exact .cons same rest
      | succ i => exact .cons first ih

theorem onTop_renamed {g : Value → Except Trap Value} (h : f.Renamed r f')
    (op : ∀ {v w}, v.Renamed r w → Corresponds (Value.Renamed r) (g v) (g w)) :
    Corresponds (Frame.Renamed r) (onTop f g) (onTop f' g) := by
  obtain ⟨fn, pc, slots, stack⟩ := f
  obtain ⟨fn', pc', slots', stack'⟩ := f'
  obtain ⟨rfl, rfl, slots_, stack_⟩ := h
  cases stack_ with
  | nil => exact .error _
  | cons first rest =>
      exact (op first).bind fun a b same => .ok ⟨rfl, rfl, slots_, .cons same rest⟩

theorem onTwo_renamed {g : Value → Value → Except Trap Value} (h : f.Renamed r f')
    (op : ∀ {a b a' b'} (stack : List Value), f.stack = b :: a :: stack → a.Renamed r a' →
      b.Renamed r b' → Corresponds (Value.Renamed r) (g a b) (g a' b')) :
    Corresponds (Frame.Renamed r) (onTwo f g) (onTwo f' g) := by
  obtain ⟨fn, pc, slots, stack⟩ := f
  obtain ⟨fn', pc', slots', stack'⟩ := f'
  obtain ⟨rfl, rfl, slots_, stack_⟩ := h
  cases stack_ with
  | nil => exact .error _
  | cons first rest =>
      cases rest with
      | nil => exact .error _
      | cons second rest =>
          exact (op _ rfl second first).bind fun a b same => .ok ⟨rfl, rfl, slots_, .cons same rest⟩

theorem store_renamed {g : Value → Value → Except Trap Value} (h : f.Renamed r f') (slot : Nat)
    (op : ∀ {a a' b b'}, a.Renamed r a' → b.Renamed r b' →
      Corresponds (Value.Renamed r) (g a b) (g a' b')) :
    Corresponds (Frame.Renamed r) (store f slot g) (store f' slot g) := by
  have found := slot_renamed h slot
  obtain ⟨fn, pc, slots, stack⟩ := f
  obtain ⟨fn', pc', slots', stack'⟩ := f'
  obtain ⟨rfl, rfl, slots_, stack_⟩ := h
  unfold store
  cases stack_ with
  | nil => exact .error _
  | cons first rest =>
      rcases found with ⟨none_, none_'⟩ | ⟨v, w, some_, some_', same⟩
      · simp only [none_, none_']
        exact .error _
      · simp only [some_, some_']
        refine (op same first).bind fun a b same => .ok ⟨rfl, rfl, ?_, rest⟩
        simp only [Array.set!_eq_setIfInBounds, Array.toList_setIfInBounds]
        exact forall₂_set slots_ same

theorem branch_renamed (h : f.Renamed r f') (site : Nat) (offset : Int32) (take : Bool) :
    Corresponds (Frame.Renamed r) (branch f site offset take) (branch f' site offset take) := by
  obtain ⟨fn, pc, slots, stack⟩ := f
  obtain ⟨fn', pc', slots', stack'⟩ := f'
  obtain ⟨rfl, rfl, slots_, stack_⟩ := h
  unfold branch
  cases stack_ with
  | nil => exact .error _
  | @cons v w _ _ first rest =>
      cases first with
      | sampler => exact .error _
      | plain =>
          cases v with
          | bool b =>
              dsimp only
              split
              · cases jumpTarget site offset fn.code.size with
                | error t => exact .error t
                | ok target => exact .ok ⟨rfl, rfl, slots_, rest⟩
              · exact .ok ⟨rfl, rfl, slots_, rest⟩
          | _ => exact .error _

/-- Instructions that stay in the frame. -/
theorem local?_renamed (h : f.Renamed r f') (consts : ∀ v ∈ p.consts, v.Plain) (site : Nat) (o : Op)
    (faithful : Faithful r ∨ ∀ op a b stack, o = .compare op →
      f.stack ≠ .sampler b :: .sampler a :: stack) :
    Corresponds (Frame.Renamed r) (local? p site f o) (local? p site f' o) := by
  unfold local?
  cases o with
  | const i =>
      dsimp only
      cases found : p.consts[i.toNat]? with
      | none => exact .error _
      | some v => exact .ok (h.stacked (.cons (.plain (consts v (Array.mem_of_getElem? found))) h.stack))
  | load slot =>
      dsimp only
      rcases slot_renamed h slot.toNat with ⟨none_, none_'⟩ | ⟨v, w, some_, some_', same⟩
      · rw [none_, none_']
        exact .error _
      · rw [some_, some_']
        exact .ok (h.stacked (.cons same h.stack))
  | store slot => exact store_renamed h _ fun _ new => .ok new
  | storeLanes slot lanes =>
      exact store_renamed h _ fun old new => Value.corresponds_of_blur₂ (Value.replace_blur lanes)
        Value.plain_replace old new
  | select lanes =>
      exact onTop_renamed h fun same => Value.corresponds_of_blur (Value.select_blur lanes)
        Value.plain_select same
  | neg => exact onTop_renamed h fun same => Value.corresponds_of_blur Value.neg_blur Value.plain_neg same
  | not => exact onTop_renamed h fun same => Value.corresponds_of_blur Value.not_blur Value.plain_not same
  | toInt =>
      exact onTop_renamed h fun same => Value.corresponds_of_blur Value.toInt_blur Value.plain_toInt same
  | toBool =>
      exact onTop_renamed h fun same => Value.corresponds_of_blur Value.toBool_blur Value.plain_toBool same
  | arith op =>
      exact onTwo_renamed h fun _ _ left right => Value.corresponds_of_blur₂ (Value.arith_blur op)
        Value.plain_arith left right
  | compare op =>
      refine onTwo_renamed h fun {a b _ _} stack top left right => ?_
      have apart : Faithful r ∨ ¬ (a.ty = .sampler ∧ b.ty = .sampler) := by
        refine faithful.imp_right fun other ⟨ta, tb⟩ => ?_
        obtain ⟨x, rfl⟩ := Value.sampler_of_ty ta
        obtain ⟨y, rfl⟩ := Value.sampler_of_ty tb
        exact other op x y stack rfl top
      rw [Value.compare_renamed op left right apart]
      cases Value.compare op _ _ with
      | error t => exact .error t
      | ok c => exact .ok (.plain nofun)
  | dup =>
      obtain ⟨fn, pc, slots, stack⟩ := f
      obtain ⟨fn', pc', slots', stack'⟩ := f'
      obtain ⟨rfl, rfl, slots_, stack_⟩ := h
      cases stack_ with
      | nil => exact .error _
      | cons first rest => exact .ok ⟨rfl, rfl, slots_, .cons first (.cons first rest)⟩
  | pop =>
      obtain ⟨fn, pc, slots, stack⟩ := f
      obtain ⟨fn', pc', slots', stack'⟩ := f'
      obtain ⟨rfl, rfl, slots_, stack_⟩ := h
      cases stack_ with
      | nil => exact .error _
      | cons first rest => exact .ok ⟨rfl, rfl, slots_, rest⟩
  | toFloat depth =>
      dsimp only
      by_cases inside : depth.toNat < f.stack.length
      · have inside' : depth.toNat < f'.stack.length := h.stack.length_eq ▸ inside
        rw [List.getElem?_eq_getElem inside, List.getElem?_eq_getElem inside']
        refine (Value.corresponds_of_blur Value.toFloat_blur Value.plain_toFloat
          (h.stack.get inside inside')).bind fun a b same => .ok (h.stacked (forall₂_set h.stack same))
      · have outside := Nat.not_lt.1 inside
        have outside' : f'.stack.length ≤ depth.toNat := h.stack.length_eq ▸ outside
        rw [List.getElem?_eq_none outside, List.getElem?_eq_none outside']
        exact .error _
  | construct width argc =>
      dsimp only
      rcases takeArgs_renamed argc.toNat h.stack with
        ⟨none_, none_'⟩ | ⟨parts, stack, parts', stack', some_, some_', same, rest⟩
      · rw [none_, none_']
        exact .error _
      · rw [some_, some_']
        dsimp only
        rw [← Value.construct_blur _ parts, Value.renamed_blur same, Value.construct_blur]
        cases made : Value.construct width.toNat parts' with
        | error t => exact .error t
        | ok v => exact .ok (h.stacked (.cons (.plain (Value.plain_construct made)) rest))
  | jump offset =>
      dsimp only
      rw [h.function]
      cases jumpTarget site offset f'.function.code.size with
      | error t => exact .error t
      | ok target => exact .ok ⟨rfl, rfl, h.slots, h.stack⟩
  | jumpIfFalse offset => exact branch_renamed h _ _ _
  | jumpIfTrue offset => exact branch_renamed h _ _ _
  | builtin | call | ret | retVoid | missingReturn => exact .ok h

theorem point?_renamed {v w : Value} (h : v.Renamed r w) : v.point? = w.point? := by
  rw [← Value.point?_blur v, h.blur_eq, Value.point?_blur]

theorem colour?_renamed {v w : Value} (h : v.Renamed r w) : v.colour? = w.colour? := by
  rw [← Value.colour?_blur v, h.blur_eq, Value.colour?_blur]

/-- A result that is the same for both, and no sampler. -/
def Equally (x y : Except Trap (Option Value) × σ) : Prop :=
  x = y ∧ ∀ v s, x = (.ok (some v), s) → v.Plain

theorem Equally.error (t : Trap) (s : σ) : Equally (.error t, s) (.error t, s) := ⟨rfl, nofun⟩

theorem Equally.value {v : Value} (plain : v.Plain) (s : σ) :
    Equally (.ok (some v), s) (.ok (some v), s) := by
  refine ⟨rfl, ?_⟩
  rintro _ _ ⟨⟩
  exact plain

/-- Either both values are the same sampler, or neither is one. -/
theorem sampler?_cases {v w : Value} (h : v.Renamed r w) :
    (∃ a b, r a b ∧ v.sampler? = .ok a ∧ w.sampler? = .ok b) ∨
      ∃ t, v.sampler? = .error t ∧ w.sampler? = .error t := by
  cases h with
  | sampler same => exact .inl ⟨_, _, same, rfl, rfl⟩
  | plain plain =>
      cases v with
      | sampler => exact absurd rfl plain
      | _ => exact .inr ⟨_, rfl, rfl⟩

theorem callBuiltin_renamed (hosts : host.Renamed r host') (b : Builtin) {args args' : List Value}
    (h : List.Forall₂ (Value.Renamed r) args args') (s : σ) :
    Equally (callBuiltin host b args s) (callBuiltin host' b args' s) := by
  unfold callBuiltin
  split
  · cases h
    rw [hosts.destination]
    exact .value (v := .ofPoint _) nofun s
  · obtain ⟨_, _, first, ⟨⟩, rfl⟩ := List.forall₂_cons_left_iff.1 h
    rcases sampler?_cases first with ⟨_, _, same, asked, asked'⟩ | ⟨t, asked, asked'⟩
    · simp only [asked, asked', hosts.transform same, hosts.destination]
      exact .value (v := .ofPoint _) nofun _
    · simp only [asked, asked']
      exact .error t s
  · obtain ⟨_, _, first, rest, rfl⟩ := List.forall₂_cons_left_iff.1 h
    obtain ⟨w, _, second, ⟨⟩, rfl⟩ := List.forall₂_cons_left_iff.1 rest
    rcases sampler?_cases first with ⟨_, _, same, asked, asked'⟩ | ⟨t, asked, asked'⟩
    · simp only [asked, asked', point?_renamed second]
      cases w.point? with
      | error t => exact .error t s
      | ok q =>
          simp only [hosts.transform same]
          exact .value (v := .ofPoint _) nofun _
    · simp only [asked, asked']
      exact .error t s
  · obtain ⟨_, _, first, ⟨⟩, rfl⟩ := List.forall₂_cons_left_iff.1 h
    rcases sampler?_cases first with ⟨_, _, same, asked, asked'⟩ | ⟨t, asked, asked'⟩
    · simp only [asked, asked', hosts.extent same]
      exact .value (v := .ofPoint _) nofun _
    · simp only [asked, asked']
      exact .error t s
  · obtain ⟨_, _, first, ⟨⟩, rfl⟩ := List.forall₂_cons_left_iff.1 h
    rcases sampler?_cases first with ⟨_, _, same, asked, asked'⟩ | ⟨t, asked, asked'⟩
    · simp only [asked, asked', hosts.extent same]
      exact .value (v := .ofPoint _) nofun _
    · simp only [asked, asked']
      exact .error t s
  · obtain ⟨_, _, first, ⟨⟩, rfl⟩ := List.forall₂_cons_left_iff.1 h
    rcases sampler?_cases first with ⟨_, _, same, asked, asked'⟩ | ⟨t, asked, asked'⟩
    · simp only [asked, asked', hosts.extent same]
      exact .value (v := .vec4 _ _ _ _) nofun _
    · simp only [asked, asked']
      exact .error t s
  · obtain ⟨_, _, first, rest, rfl⟩ := List.forall₂_cons_left_iff.1 h
    obtain ⟨w, _, second, ⟨⟩, rfl⟩ := List.forall₂_cons_left_iff.1 rest
    rcases sampler?_cases first with ⟨_, _, same, asked, asked'⟩ | ⟨t, asked, asked'⟩
    · simp only [asked, asked', point?_renamed second]
      cases w.point? with
      | error t => exact .error t s
      | ok q =>
          simp only [hosts.sample same]
          split
          · exact .value (v := .ofColour _) nofun _
          · exact .error _ _
    · simp only [asked, asked']
      exact .error t s
  · obtain ⟨w, _, first, ⟨⟩, rfl⟩ := List.forall₂_cons_left_iff.1 h
    simp only [colour?_renamed first]
    cases w.colour? with
    | none => exact .error _ s
    | some c =>
        simp only [hosts.emit]
        split
        · exact ⟨rfl, nofun⟩
        · exact .error _ _
  · -- no other builtin asks the host
    next destCoord samplerCoord samplerTransform samplerOrigin samplerSize samplerExtent sample
      emit =>
    change Equally _ (callBuiltin host' b args' s)
    rw [callBuiltin.eq_9 host' b args' s]
    · rw [← Builtin.evaluate?_blur b args, Value.renamed_blur h, Builtin.evaluate?_blur]
      cases made : b.evaluate? args' with
      | none => exact .error _ s
      | some v => exact .value (Builtin.plain_evaluate? made) s
    · rintro rfl rfl
      cases h
      exact destCoord rfl rfl
    · rintro v rfl rfl
      obtain ⟨_, _, -, ⟨⟩, rfl⟩ := List.forall₂_cons_right_iff.1 h
      exact samplerCoord _ rfl rfl
    · rintro v w rfl rfl
      obtain ⟨_, _, -, rest, rfl⟩ := List.forall₂_cons_right_iff.1 h
      obtain ⟨_, _, -, ⟨⟩, rfl⟩ := List.forall₂_cons_right_iff.1 rest
      exact samplerTransform _ _ rfl rfl
    · rintro v rfl rfl
      obtain ⟨_, _, -, ⟨⟩, rfl⟩ := List.forall₂_cons_right_iff.1 h
      exact samplerOrigin _ rfl rfl
    · rintro v rfl rfl
      obtain ⟨_, _, -, ⟨⟩, rfl⟩ := List.forall₂_cons_right_iff.1 h
      exact samplerSize _ rfl rfl
    · rintro v rfl rfl
      obtain ⟨_, _, -, ⟨⟩, rfl⟩ := List.forall₂_cons_right_iff.1 h
      exact samplerExtent _ rfl rfl
    · rintro v w rfl rfl
      obtain ⟨_, _, -, rest, rfl⟩ := List.forall₂_cons_right_iff.1 h
      obtain ⟨_, _, -, ⟨⟩, rfl⟩ := List.forall₂_cons_right_iff.1 rest
      exact sample _ _ rfl rfl
    · rintro v rfl rfl
      obtain ⟨_, _, -, ⟨⟩, rfl⟩ := List.forall₂_cons_right_iff.1 h
      exact emit _ rfl rfl

inductive Next.Renamed (r : Option Nat → Option Nat → Prop) : Next σ → Next σ → Prop where
  | go {m m' s} (h : m.Renamed r m') : Renamed r (.go m s) (.go m' s)
  | stop {v w s} (h : Corresponds (Option.Rel (Value.Renamed r)) v w) :
      Renamed r (.stop v s) (.stop w s)

theorem enter_renamed (hosts : host.Renamed r host') (i : Nat) {args args' : List Value}
    (h : List.Forall₂ (Value.Renamed r) args args') {callers callers' : List Frame}
    (waiting : List.Forall₂ (Frame.Renamed r) callers callers') :
    Corresponds (Machine.Renamed r) (enter p i args callers) (enter p i args' callers') := by
  unfold enter
  cases p.functions[i]? with
  | none => exact .error _
  | some g =>
      dsimp only
      rw [h.length_eq, waiting.length_eq]
      split
      · exact .error _
      · split
        · exact .error _
        · refine .ok ⟨⟨rfl, rfl, List.rel_append h ?_, .nil⟩, waiting⟩
          rw [List.forall₂_same]
          intro v there
          obtain ⟨t, -, rfl⟩ := List.mem_map.1 there
          cases t with
          | sampler => exact .sampler hosts.unbound
          | _ => exact .plain nofun

theorem leave_renamed {callers callers' : List Frame}
    (waiting : List.Forall₂ (Frame.Renamed r) callers callers') {v w : Option Value}
    (same : Option.Rel (Value.Renamed r) v w) (s : σ) :
    (leave callers v s).Renamed r (leave callers' w s) := by
  cases waiting with
  | nil => exact .stop (.ok same)
  | cons first rest =>
      refine .go ⟨first.stacked (List.rel_append ?_ first.stack), rest⟩
      cases same with
      | none => exact .nil
      | some same => exact .cons same .nil

theorem step_renamed (hosts : host.Renamed r host') (consts : ∀ v ∈ p.consts, v.Plain)
    {m m' : Machine} (h : m.Renamed r m') (faithful : Faithful r ∨ ¬ m.ComparesSamplers) (s : σ) :
    (step p host m s).Renamed r (step p host' m' s) := by
  unfold step
  rw [← h.frame.function, ← h.frame.pc]
  dsimp only
  cases found : m.frame.function.code[m.frame.pc]? with
  | none => exact .stop (.error _)
  | some op =>
      have moved : ({ m.frame with pc := m.frame.pc + 1 } : Frame).Renamed r
          { m'.frame with pc := m.frame.pc + 1 } :=
        ⟨h.frame.function, rfl, h.frame.slots, h.frame.stack⟩
      cases op with
      | builtin b argc =>
          dsimp only
          rcases takeArgs_renamed argc.toNat h.frame.stack with
            ⟨none_, none_'⟩ | ⟨args, stack, args', stack', some_, some_', same, rest⟩
          · rw [none_, none_']
            exact .stop (.error _)
          · rw [some_, some_']
            dsimp only
            obtain ⟨equal, plain⟩ := callBuiltin_renamed hosts b same s
            rw [← equal]
            cases answer : callBuiltin host b args s with
            | mk v s' =>
                cases v with
                | error t => exact .stop (.error t)
                | ok v =>
                    refine .go ⟨moved.stacked (List.rel_append ?_ rest), h.callers⟩
                    cases v with
                    | none => exact .nil
                    | some v => exact .cons (.plain (plain v s' answer)) .nil
      | call i argc =>
          dsimp only
          rcases takeArgs_renamed argc.toNat h.frame.stack with
            ⟨none_, none_'⟩ | ⟨args, stack, args', stack', some_, some_', same, rest⟩
          · rw [none_, none_']
            exact .stop (.error _)
          · rw [some_, some_']
            have entered := enter_renamed (p := p) hosts i.toNat same
              (.cons (moved.stacked rest) h.callers)
            dsimp only
            generalize enter p i.toNat args _ = x at entered ⊢
            generalize enter p i.toNat args' _ = y at entered ⊢
            cases entered with
            | ok machines => exact .go machines
            | error t => exact .stop (.error t)
      | ret =>
          dsimp only
          have stack := h.frame.stack
          generalize m.frame.stack = vs at stack ⊢
          generalize m'.frame.stack = ws at stack ⊢
          cases stack with
          | nil => exact .stop (.error _)
          | cons first _ => exact leave_renamed h.callers (.some first) s
      | retVoid => exact leave_renamed h.callers .none s
      | missingReturn => rw [h.frame.function]; exact .stop (.error _)
      | _ =>
          have local_ := local?_renamed moved consts m.frame.pc _ (faithful.imp_right
            fun apart op a b stack same top => apart ⟨op, a, b, stack, same ▸ found, top⟩)
          dsimp only
          generalize local? p m.frame.pc _ _ = x at local_ ⊢
          generalize local? p m.frame.pc _ _ = y at local_ ⊢
          cases local_ with
          | ok frames => exact .go ⟨frames, h.callers⟩
          | error t => exact .stop (.error t)

/-! ## Runs -/

/-- None of the next steps compares samplers. -/
def BlindFor (p : Program) (host : Host σ) : Nat → Machine → σ → Prop
  | 0, _, _ => True
  | n + 1, m, s =>
    ¬ m.ComparesSamplers ∧ ∀ m' s', step p host m s = .go m' s' → BlindFor p host n m' s'

/-- Runs with corresponding results, as many steps, and the same for the host. -/
structure Run.Renamed (r : Option Nat → Option Nat → Prop) (x y : Run σ) : Prop where
  result : Corresponds (Option.Rel (Value.Renamed r)) x.result y.result
  left : x.left = y.left
  state : x.state = y.state

theorem run_renamed (hosts : host.Renamed r host') (consts : ∀ v ∈ p.consts, v.Plain) (b : Nat)
    {m m' : Machine} (h : m.Renamed r m') (s : σ) (faithful : Faithful r ∨ BlindFor p host b m s) :
    (run p host b m s).Renamed r (run p host' b m' s) := by
  induction b generalizing m m' s with
  | zero => exact ⟨.error _, rfl, rfl⟩
  | succ b ih =>
      have stepped := step_renamed hosts consts h (faithful.imp_right fun blind => blind.1) s
      have rest : ∀ m₁ s₁, step p host m s = .go m₁ s₁ → Faithful r ∨ BlindFor p host b m₁ s₁ :=
        fun m₁ s₁ went => faithful.imp_right fun blind => blind.2 m₁ s₁ went
      rw [run, run]
      generalize step p host m s = x at stepped rest ⊢
      generalize step p host' m' s = y at stepped ⊢
      cases stepped with
      | go machines => exact ih machines _ (rest _ _ rfl)
      | stop result => exact ⟨result, rfl, rfl⟩

namespace BlindFor

variable {n k : Nat} {m m₁ : Machine} {s s₁ : σ}

theorem less (h : BlindFor p host n m s) (le : k ≤ n) : BlindFor p host k m s := by
  induction k generalizing n m s with
  | zero => trivial
  | succ k ih =>
      obtain _ | n := n
      · exact absurd le (Nat.not_succ_le_zero k)
      · exact ⟨h.1, fun m' s' went => ih (h.2 m' s' went) (Nat.le_of_succ_le_succ le)⟩

theorem of_reaches (h : Reaches p host n m s m₁ s₁) (rest : BlindFor p host k m₁ s₁) :
    BlindFor p host (k + n) m s := by
  induction h with
  | refl => exact rest
  | next first _ ih =>
      refine ⟨first.blind, fun m' s' went => ?_⟩
      rw [first.eq] at went
      cases went
      exact ih rest

theorem of_stop {v : Except Trap (Option Value)} (h : Does p host m s (.stop v s₁)) :
    BlindFor p host n m s := by
  cases n with
  | zero => trivial
  | succ n =>
      refine ⟨h.blind, fun m' s' went => ?_⟩
      rw [h.eq] at went
      cases went

theorem of_halts {v : Except Trap (Option Value)} (h : Halts p host k m s v s₁) :
    BlindFor p host n m s := by
  obtain ⟨m', s', reaches, stop⟩ := h
  exact (of_reaches reaches (of_stop stop)).less (Nat.le_add_right n k)

theorem of_outlasts (h : Outlasts p host n m s) : BlindFor p host n m s := by
  obtain ⟨k, m', s', le, reaches⟩ := h
  exact (of_reaches (k := 0) reaches trivial).less (by omega)

end BlindFor

end Machine

/-- No run of the program on the arguments compares samplers. -/
def Program.Blind {σ : Type} (p : Program) (args : List Value) (host : Host σ) : Prop :=
  ∀ m, Machine.enter p p.entry args [] = .ok m → ∀ b s, Machine.BlindFor p host b m s

/-- Runs on arguments that are the same but for samplers' numbers. -/
theorem Program.run_renamed {σ : Type} {p : Program} {r : Option Nat → Option Nat → Prop}
    {host host' : Host σ} (hosts : host.Renamed r host') (consts : ∀ v ∈ p.consts, v.Plain)
    {args args' : List Value} (same : List.Forall₂ (Value.Renamed r) args args')
    (faithful : Faithful r ∨ p.Blind args host) (b : Nat) (s : σ) :
    (p.run args host b s).Renamed r (p.run args' host' b s) := by
  have entered := Machine.enter_renamed (p := p) hosts p.entry same .nil
  unfold Program.run
  cases left : Machine.enter p p.entry args [] with
  | error t =>
      rw [left] at entered
      cases right : Machine.enter p p.entry args' [] with
      | error t' =>
          rw [right] at entered
          cases entered
          exact ⟨.error _, rfl, rfl⟩
      | ok m' => rw [right] at entered; cases entered
  | ok m =>
      rw [left] at entered
      cases right : Machine.enter p p.entry args' [] with
      | error t' => rw [right] at entered; cases entered
      | ok m' =>
          rw [right] at entered
          cases entered with
          | ok machines =>
              exact Machine.run_renamed hosts consts b machines s
                (faithful.imp_right fun blind => blind m left b s)

end PixelKernel.Language
