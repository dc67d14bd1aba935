import PixelKernel.Language.Code.Lowering
import PixelKernel.Language.Machine

/-! # Types of values

Operations on values of fitting types succeed, and the type of what they give follows from
the types they are given.
-/

namespace PixelKernel.Language

namespace Ty

theorem ofLanes?_lanes? {t : Ty} {n : Nat} (h : t.lanes? = some n) (ht : t ≠ .color) :
    Ty.ofLanes? n = some t := by
  cases t <;> cases h <;> first | rfl | exact absurd rfl ht

theorem lanes?_ofLanes? {t : Ty} {n : Nat} (h : Ty.ofLanes? n = some t) :
    t.lanes? = some n := by
  unfold Ty.ofLanes? at h
  split at h <;> cases h <;> rfl

theorem lanes?_le {t : Ty} {n : Nat} (h : t.lanes? = some n) : 1 ≤ n ∧ n ≤ 4 := by
  cases t <;> cases h <;> omega

theorem isSome_ofLanes? {n : Nat} (h : 1 ≤ n ∧ n ≤ 4) : ∃ t, Ty.ofLanes? n = some t := by
  obtain rfl | rfl | rfl | rfl : n = 1 ∨ n = 2 ∨ n = 3 ∨ n = 4 := by omega
  all_goals exact ⟨_, rfl⟩

theorem operand_eq_void {t : Ty} : t.operand = .void ↔ t = .void := by
  cases t <;> simp [operand]

end Ty

namespace Value

theorem ty_ne_color (v : Value) : v.ty ≠ .color := by
  cases v <;> exact nofun

theorem ty_ne_void (v : Value) : v.ty ≠ .void := by
  cases v <;> exact nofun

theorem zero_ty {t : Ty} (h : t ≠ .void) : (zero t).ty = t.operand := by
  cases t <;> first | rfl | exact absurd rfl h

/-- A value has lanes when its type has them. -/
theorem lanes?_of_ty {v : Value} {n : Nat} (h : v.ty.lanes? = some n) :
    ∃ xs, v.lanes? = some xs ∧ xs.length = n := by
  cases v <;> cases h <;> exact ⟨_, rfl, rfl⟩

theorem isSome_lanes? (v : Value) : v.lanes?.isSome = v.ty.lanes?.isSome := by
  cases v <;> rfl

theorem ofLanes?_of_length {xs : List Float32} {t : Ty} (h : Ty.ofLanes? xs.length = some t) :
    ∃ v, ofLanes? xs = some v ∧ v.ty = t := by
  match xs with
  | [_] | [_, _] | [_, _, _] | [_, _, _, _] => cases h; exact ⟨_, rfl, rfl⟩
  | [] => cases h
  | _ :: _ :: _ :: _ :: _ :: _ => simp [Ty.ofLanes?] at h

theorem bool_of_ty {v : Value} (h : v.ty = .bool) : ∃ b, v = .bool b := by
  cases v <;> cases h; exact ⟨_, rfl⟩

theorem int_of_ty {v : Value} (h : v.ty = .int) : ∃ n, v = .int n := by
  cases v <;> cases h; exact ⟨_, rfl⟩

theorem float_of_ty {v : Value} (h : v.ty = .float) : ∃ x, v = .float x := by
  cases v <;> cases h; exact ⟨_, rfl⟩

theorem vec4_of_ty {v : Value} (h : v.ty = .vec4) : ∃ x y z w, v = .vec4 x y z w := by
  cases v <;> cases h; exact ⟨_, _, _, _, rfl⟩

theorem sampler_of_ty {v : Value} (h : v.ty = .sampler) : ∃ s, v = .sampler s := by
  cases v <;> cases h; exact ⟨_, rfl⟩

/-! ## Operators -/

theorem map_of_ty (f : Float32 → Float32) {v : Value} (h : v.ty.lanes?.isSome) :
    ∃ w, v.map f = some w ∧ w.ty = v.ty := by
  obtain ⟨n, hn⟩ := Option.isSome_iff_exists.1 h
  obtain ⟨xs, hxs, rfl⟩ := lanes?_of_ty hn
  have width : Ty.ofLanes? (xs.map f).length = some v.ty := by
    rw [List.length_map]
    exact Ty.ofLanes?_lanes? hn v.ty_ne_color
  obtain ⟨w, hw, ht⟩ := ofLanes?_of_length width
  exact ⟨w, by simp [Value.map, hxs, hw], ht⟩

theorem length_spread (xs : List Float32) {n : Nat} (h : xs.length = n ∨ xs.length = 1) :
    ∃ ys, spread n xs = some ys ∧ ys.length = n := by
  unfold spread
  split
  next x => exact ⟨_, rfl, List.length_replicate⟩
  next one =>
    have : xs.length = n := by
      refine h.resolve_right fun h1 => ?_
      obtain ⟨x, rfl⟩ := List.length_eq_one_iff.1 h1
      exact one x rfl
    exact ⟨xs, if_pos this, this⟩

theorem zip_of_ty (f : Float32 → Float32 → Float32) {a b : Value} {m n : Nat} {t : Ty}
    (ha : a.ty.lanes? = some m) (hb : b.ty.lanes? = some n) (h : m = n ∨ n = 1 ∨ m = 1)
    (ht : Ty.ofLanes? (max m n) = some t) : ∃ w, zip f a b = some w ∧ w.ty = t := by
  obtain ⟨xs, hxs, rfl⟩ := lanes?_of_ty ha
  obtain ⟨ys, hys, rfl⟩ := lanes?_of_ty hb
  have := Ty.lanes?_le ha
  have := Ty.lanes?_le hb
  obtain ⟨xs', hxs', lx⟩ := length_spread xs (n := max xs.length ys.length) (by omega)
  obtain ⟨ys', hys', ly⟩ := length_spread ys (n := max xs.length ys.length) (by omega)
  have width : Ty.ofLanes? (List.zipWith f xs' ys').length = some t := by
    rw [List.length_zipWith, lx, ly, Nat.min_self, ht]
  obtain ⟨w, hw, hwt⟩ := ofLanes?_of_length width
  exact ⟨w, by simp [Value.zip, hxs, hys, hxs', hys', hw], hwt⟩

theorem zip3_of_ty (f : Float32 → Float32 → Float32 → Float32) {a b c : Value} {l m n k : Nat}
    {t : Ty} (ha : a.ty.lanes? = some l) (hb : b.ty.lanes? = some m) (hc : c.ty.lanes? = some n)
    (hk : k = max (max l m) n) (hl : l = k ∨ l = 1) (hm : m = k ∨ m = 1) (hn : n = k ∨ n = 1)
    (ht : Ty.ofLanes? k = some t) : ∃ w, zip3 f a b c = some w ∧ w.ty = t := by
  subst hk
  obtain ⟨xs, hxs, rfl⟩ := lanes?_of_ty ha
  obtain ⟨ys, hys, rfl⟩ := lanes?_of_ty hb
  obtain ⟨zs, hzs, rfl⟩ := lanes?_of_ty hc
  obtain ⟨xs', hxs', lx⟩ := length_spread xs hl
  obtain ⟨ys', hys', ly⟩ := length_spread ys hm
  obtain ⟨zs', hzs', lz⟩ := length_spread zs hn
  have width : Ty.ofLanes? (List.zipWith (fun x p => f x p.1 p.2) xs' (List.zip ys' zs')).length =
      some t := by
    rw [List.length_zipWith, List.length_zip, lx, ly, lz, Nat.min_self, Nat.min_self, ht]
  obtain ⟨w, hw, hwt⟩ := ofLanes?_of_length width
  exact ⟨w, by simp only [Value.zip3, hxs, hys, hzs, hxs', hys', hzs', hw, Option.bind_eq_bind,
    Option.bind_some], hwt⟩

theorem dot_of_ty {a b : Value} (ha : a.ty.lanes?.isSome) (hb : b.ty.lanes?.isSome) :
    ∃ x, dot a b = some x := by
  obtain ⟨m, hm⟩ := Option.isSome_iff_exists.1 ha
  obtain ⟨n, hn⟩ := Option.isSome_iff_exists.1 hb
  obtain ⟨xs, hxs, -⟩ := lanes?_of_ty hm
  obtain ⟨ys, hys, -⟩ := lanes?_of_ty hn
  exact ⟨_, by simp only [dot, hxs, hys]; rfl⟩

theorem arith_of_ty (op : ArithOp) {a b : Value} {t : Ty}
    (h : Lower.arithResult? a.ty b.ty = some t) : ∃ v, arith op a b = .ok v ∧ v.ty = t := by
  unfold Lower.arithResult? at h
  split at h
  next ints =>
    cases h
    obtain ⟨x, rfl⟩ := int_of_ty ints.1
    obtain ⟨y, rfl⟩ := int_of_ty ints.2
    exact ⟨_, rfl, rfl⟩
  next ints =>
    split at h
    next m n hm hn =>
      have lanes : Ty.ofLanes? (max m n) = some t ∧ (m = n ∨ n = 1 ∨ m = 1) := by
        have := Ty.lanes?_le hm
        have := Ty.lanes?_le hn
        split at h
        · cases h
          rw [show max m n = m by omega]
          exact ⟨Ty.ofLanes?_lanes? hm a.ty_ne_color, by omega⟩
        · split at h
          · cases h
            rw [show max m n = n by omega]
            exact ⟨Ty.ofLanes?_lanes? hn b.ty_ne_color, by omega⟩
          · cases h
      unfold arith
      split
      · cases hm
      · obtain ⟨w, hw, ht⟩ := zip_of_ty _ hm hn lanes.2 lanes.1
        exact ⟨w, by dsimp only; rw [hw], ht⟩
    next => cases h

theorem neg_of_ty {v : Value} (h : v.ty = .int ∨ v.ty.lanes?.isSome) :
    ∃ w, v.neg = .ok w ∧ w.ty = v.ty := by
  unfold neg
  split
  · exact ⟨_, rfl, rfl⟩
  next notInt =>
    have lanes : v.ty.lanes?.isSome := by
      refine h.resolve_left fun hi => ?_
      obtain ⟨n, rfl⟩ := int_of_ty hi
      exact notInt n rfl
    obtain ⟨w, hw, ht⟩ := map_of_ty (- ·) lanes
    exact ⟨w, by rw [hw], ht⟩

theorem compare_of_ty (op : OrderOp) {a b : Value} (same : a.ty = b.ty)
    (h : op = .eq ∨ op = .ne ∨ a.ty.isOrdered) : ∃ c, compare op a b = .ok c := by
  unfold compare
  split
  · exact ⟨_, rfl⟩
  · exact ⟨_, rfl⟩
  next heq hne =>
    have ordered := (h.resolve_left heq).resolve_left hne
    split
    · exact ⟨_, rfl⟩
    · exact ⟨_, rfl⟩
    next ints floats =>
      exfalso
      cases a <;> cases b <;> simp_all [Value.ty, Ty.isOrdered]

theorem toFloat_of_ty {v : Value} (h : v.ty = .int ∨ v.ty = .float ∨ v.ty = .bool) :
    ∃ x, v.toFloat = .ok (.float x) := by
  cases v <;> first | exact ⟨_, rfl⟩ | simp [Value.ty] at h

theorem toInt_of_ty {v : Value} (h : v.ty = .int ∨ v.ty = .float ∨ v.ty = .bool) :
    ∃ x, v.toInt = .ok (.int x) := by
  cases v <;> first | exact ⟨_, rfl⟩ | simp [Value.ty] at h

theorem toBool_of_ty {v : Value} (h : v.ty = .int ∨ v.ty = .float ∨ v.ty = .bool) :
    ∃ x, v.toBool = .ok (.bool x) := by
  cases v <;> first | exact ⟨_, rfl⟩ | simp [Value.ty] at h

theorem mapM_getElem? {xs : List Float32} {lanes : Selection}
    (h : ∀ i ∈ lanes, i.val < xs.length) :
    ∃ ys, (lanes.mapM fun i => xs[i.val]?) = some ys ∧ ys.length = lanes.length := by
  induction lanes with
  | nil => exact ⟨[], rfl, rfl⟩
  | cons i rest ih =>
    rw [List.forall_mem_cons] at h
    obtain ⟨ys, hys, len⟩ := ih h.2
    refine ⟨xs[i.val] :: ys, ?_, by simp [len]⟩
    simp [List.mapM_cons, hys, List.getElem?_eq_getElem h.1]

theorem select_of_ty {v : Value} {n : Nat} {lanes : Selection} {t : Ty}
    (hv : v.ty.lanes? = some n) (inside : ∀ i ∈ lanes, i.val < n)
    (ht : Ty.ofLanes? lanes.length = some t) : ∃ w, v.select lanes = .ok w ∧ w.ty = t := by
  obtain ⟨xs, hxs, rfl⟩ := lanes?_of_ty hv
  obtain ⟨ys, hys, len⟩ := mapM_getElem? inside
  obtain ⟨w, hw, hwt⟩ := ofLanes?_of_length (len ▸ ht : Ty.ofLanes? ys.length = some t)
  refine ⟨w, ?_, hwt⟩
  unfold select
  rw [hxs]
  dsimp only
  rw [hys, Option.bind_some, hw]

theorem length_replaced (pairs : List (Fin 4 × Float32)) (xs : List Float32) :
    (pairs.foldl (fun xs (i, y) => xs.set i.val y) xs).length = xs.length := by
  induction pairs generalizing xs with
  | nil => rfl
  | cons pair rest ih =>
    rw [List.foldl_cons, ih]
    exact List.length_set

theorem replace_of_ty {v new : Value} (lanes : Selection) (hv : v.ty.lanes?.isSome)
    (hn : new.ty.lanes?.isSome) : ∃ w, v.replace lanes new = .ok w ∧ w.ty = v.ty := by
  obtain ⟨m, hm⟩ := Option.isSome_iff_exists.1 hv
  obtain ⟨n, hn⟩ := Option.isSome_iff_exists.1 hn
  obtain ⟨xs, hxs, rfl⟩ := lanes?_of_ty hm
  obtain ⟨ys, hys, rfl⟩ := lanes?_of_ty hn
  have width : Ty.ofLanes? ((lanes.zip ys).foldl (fun xs (i, y) => xs.set i.val y) xs).length =
      some v.ty := by
    rw [length_replaced]
    exact Ty.ofLanes?_lanes? hm v.ty_ne_color
  obtain ⟨w, hw, hwt⟩ := ofLanes?_of_length width
  refine ⟨w, ?_, hwt⟩
  unfold replace
  rw [hxs, hys]
  dsimp only
  rw [hw]

theorem mapM_lanes? {parts : List Value} (h : ∀ v ∈ parts, v.ty.lanes?.isSome) :
    ∃ lanes, parts.mapM lanes? = some lanes ∧
      lanes.flatten.length = (parts.map fun v => v.ty.lanes?.getD 0).sum := by
  induction parts with
  | nil => exact ⟨[], rfl, rfl⟩
  | cons v rest ih =>
    rw [List.forall_mem_cons] at h
    obtain ⟨n, hn⟩ := Option.isSome_iff_exists.1 h.1
    obtain ⟨xs, hxs, rfl⟩ := lanes?_of_ty hn
    obtain ⟨lanes, hl, len⟩ := ih h.2
    exact ⟨xs :: lanes, by simp [List.mapM_cons, hxs, hl], by simp [hn, len]⟩

theorem construct_of_ty {width : Nat} {parts : List Value} {t : Ty}
    (h : ∀ v ∈ parts, v.ty.lanes?.isSome) (ht : Ty.ofLanes? width = some t)
    (total : (parts.map fun v => v.ty.lanes?.getD 0).sum = width ∨
      (parts.map fun v => v.ty.lanes?.getD 0).sum = 1) :
    ∃ w, construct width parts = .ok w ∧ w.ty = t := by
  obtain ⟨lanes, hl, len⟩ := mapM_lanes? h
  rw [← len] at total
  unfold construct
  rw [hl]
  dsimp only
  split
  next one =>
    obtain ⟨x, hx⟩ := List.length_eq_one_iff.1 one
    have copies : Ty.ofLanes? (List.replicate width x).length = some t := by
      rw [List.length_replicate, ht]
    obtain ⟨w, hw, hwt⟩ := ofLanes?_of_length copies
    refine ⟨w, ?_, hwt⟩
    simp [hx, hw]
  next many =>
    have exactly := total.resolve_right many
    have joined : Ty.ofLanes? lanes.flatten.length = some t := by rw [exactly, ht]
    obtain ⟨w, hw, hwt⟩ := ofLanes?_of_length joined
    refine ⟨w, ?_, hwt⟩
    rw [if_neg (by simpa using exactly), hw]

end Value
end PixelKernel.Language
