import PixelKernel.Pixel.Grid

/-! # Grids that are built texel by texel

A grid is built if there is a texel for every place, and then it holds just these.
-/

namespace PixelKernel.Pixel.Grid

variable {χ ε α : Type}

/-! ## One value after the other -/

theorem ofFnM_eq_ok {n : Nat} {f : Fin n → Except ε α} {xs : Vector α n} :
    Vector.ofFnM f = .ok xs ↔ ∀ i : Fin n, f i = .ok xs[i] := by
  constructor
  · intro built
    induction n with
    | zero => exact fun i => i.elim0
    | succ n ih =>
        rw [Vector.ofFnM_succ] at built
        cases first : Vector.ofFnM fun i : Fin n => f i.castSucc with
        | error e => rw [first] at built; cases built
        | ok as =>
            cases last : f (Fin.last n) with
            | error e => rw [first, last] at built; cases built
            | ok a =>
                rw [first, last] at built
                cases built
                intro i
                cases i using Fin.lastCases with
                | last => simpa using last
                | cast i => simpa using ih first i
  · intro values
    have same : f = fun i => pure xs[i] := funext values
    rw [same, Vector.ofFnM_pure]
    exact congrArg Except.ok (Vector.ext fun i hi => by simp)

/-! ## Places -/

/-- Place of a texel among those of the rows before it and its own. -/
theorem place_lt {width height x y : Nat} (column : x < width) (row : y < height) :
    y * width + x < width * height := by
  have := Nat.mul_le_mul_right width (Nat.succ_le_of_lt row)
  rw [Nat.succ_mul, Nat.mul_comm height] at this
  omega

theorem place_mod {width x : Nat} (column : x < width) (y : Nat) : (y * width + x) % width = x := by
  rw [Nat.mul_comm, Nat.mul_add_mod, Nat.mod_eq_of_lt column]

theorem place_div {width x : Nat} (column : x < width) (y : Nat) : (y * width + x) / width = y := by
  rw [Nat.mul_comm, Nat.mul_add_div (Nat.zero_lt_of_lt column), Nat.div_eq_of_lt column, Nat.add_zero]

/-- Each place is that of some column and some row. -/
theorem column_row {width height i : Nat} (inside : i < width * height) :
    i % width < width ∧ i / width < height := by
  have wide : 0 < width := Nat.pos_of_ne_zero fun none_ => by simp [none_] at inside
  exact ⟨Nat.mod_lt i wide, Nat.div_lt_of_lt_mul inside⟩

variable [Scalar χ] {width height : Nat}

theorem texel_outside {g : Grid χ} {x y : Int}
    (outside : x < 0 ∨ y < 0 ∨ (g.width : Int) ≤ x ∨ (g.height : Int) ≤ y) :
    g.texel x y = Rgba.transparent := if_pos outside

theorem getElem?_texels {g : Grid χ} {x y : Nat} (column : x < g.width) (row : y < g.height) :
    g.texels[y * g.width + x]? = some (g.texel x y) := by
  have inside : y * g.width + x < g.texels.size := g.full ▸ place_lt column row
  rw [texel, if_neg (by omega)]
  simp [Array.getD, inside]

/-- A grid is told by its size and its texels. -/
theorem ext_texel {g g' : Grid χ} (same_width : g.width = g'.width)
    (same_height : g.height = g'.height)
    (same : ∀ x < g.width, ∀ y < g.height, g.texel x y = g'.texel x y) : g = g' := by
  obtain ⟨width, height, texels, full⟩ := g
  obtain ⟨width', height', texels', full'⟩ := g'
  dsimp only at same_width same_height
  subst same_width same_height
  congr
  refine Array.ext (full.trans full'.symm) fun i inside inside' => ?_
  obtain ⟨column, row⟩ := column_row (full ▸ inside)
  have here := getElem?_texels (g := ⟨width, height, texels, full⟩) column row
  have there := getElem?_texels (g := ⟨width, height, texels', full'⟩) column row
  rw [same _ column _ row] at here
  have equal := here.trans there.symm
  simp only [Nat.div_add_mod'] at equal
  rw [Array.getElem?_eq_getElem inside, Array.getElem?_eq_getElem inside'] at equal
  exact Option.some.inj equal

/-! ## Grids of a function -/

/-- The grid of the texels that `f` gives for columns and rows. -/
def tabulate (width height : Nat) (f : Nat → Nat → Rgba χ) : Grid χ :=
  ⟨width, height, Array.ofFn fun i : Fin (width * height) => f (i % width) (i / width),
    Array.size_ofFn⟩

theorem texel_tabulate {f : Nat → Nat → Rgba χ} {x y : Nat} (column : x < width)
    (row : y < height) : (tabulate width height f).texel x y = f x y := by
  have there := getElem?_texels (g := tabulate width height f) column row
  have inside := place_lt column row
  simp only [tabulate, Array.getElem?_ofFn, inside, dif_pos, place_mod column,
    place_div column] at there
  exact (Option.some.inj there).symm

theorem eq_tabulate_iff {g : Grid χ} {f : Nat → Nat → Rgba χ} :
    g = tabulate width height f ↔ g.width = width ∧ g.height = height ∧
      ∀ x < width, ∀ y < height, g.texel x y = f x y := by
  constructor
  · rintro rfl
    exact ⟨rfl, rfl, fun x column y row => texel_tabulate column row⟩
  · rintro ⟨rfl, rfl, same⟩
    exact ext_texel rfl rfl fun x column y row =>
      (same x column y row).trans (texel_tabulate column row).symm

omit [Scalar χ] in
theorem fill_eq (g : Grid χ) (c : Rgba χ) : g.fill c = tabulate g.width g.height fun _ _ => c := by
  have same : Array.replicate (g.width * g.height) c =
      Array.ofFn fun _ : Fin (g.width * g.height) => c := Array.ext (by simp) fun i _ _ => by simp
  simp only [fill, filled, tabulate, same]

/-! ## Building -/

omit [Scalar χ] in
/-- Only places in the grid are asked for. -/
theorem build_congr {f f' : Nat → Nat → Except ε (Rgba χ)}
    (same : ∀ x < width, ∀ y < height, f x y = f' x y) :
    build width height f = build width height f' := by
  have texels : (fun i : Fin (width * height) => f (i % width) (i / width)) =
      fun i : Fin (width * height) => f' (i % width) (i / width) :=
    funext fun i => same _ (column_row i.isLt).1 _ (column_row i.isLt).2
  rw [build, build, texels]

theorem build_eq_ok {f : Nat → Nat → Except ε (Rgba χ)} {g : Grid χ} :
    build width height f = .ok g ↔ g.width = width ∧ g.height = height ∧
      ∀ x < width, ∀ y < height, f x y = .ok (g.texel x y) := by
  unfold build
  constructor
  · intro built
    cases made : Vector.ofFnM fun i : Fin (width * height) => f (i % width) (i / width) with
    | error e => rw [made] at built; cases built
    | ok xs =>
        rw [made] at built
        cases built
        refine ⟨rfl, rfl, fun x column y row => ?_⟩
        have inside := place_lt column row
        have value := ofFnM_eq_ok.1 made ⟨y * width + x, inside⟩
        simp only [place_mod column, place_div column] at value
        have there : xs.toArray[y * width + x]? = some _ :=
          getElem?_texels (g := ⟨width, height, xs.toArray, xs.size_toArray⟩) column row
        rw [value]
        exact congrArg Except.ok (Array.getElem?_eq_some_iff.1 there).2
  · rintro ⟨rfl, rfl, values⟩
    have made : (Vector.ofFnM fun i : Fin (g.width * g.height) => f (i % g.width) (i / g.width)) =
        .ok ⟨g.texels, g.full⟩ := by
      refine ofFnM_eq_ok.2 fun i => ?_
      obtain ⟨column, row⟩ := column_row i.isLt
      have place : (i : Nat) / g.width * g.width + i % g.width = i := Nat.div_add_mod' i g.width
      have there := getElem?_texels column row
      rw [place] at there
      rw [values _ column _ row]
      exact congrArg Except.ok (Array.getElem?_eq_some_iff.1 there).2.symm
    rw [made]
    rfl

end PixelKernel.Pixel.Grid
