import PixelKernel.Proofs.Geometry.Centers
import PixelKernel.Proofs.Graph.Copies
import PixelKernel.Proofs.Graph.Rendering
import PixelKernel.Proofs.Machine.Hosts

/-! # Tiles

What a pixel shows, or emits, is up to its place in the plane and to nothing else: not to the
rectangle that is rendered, and not to the pixels before it. So a rectangle can be rendered tile
by tile.
-/

namespace PixelKernel

namespace Pixel

/-- Columns and rows of the pixels, row by row. -/
def places (width height : Nat) : List (Nat × Nat) :=
  (List.range height).flatMap fun row => (List.range width).map (·, row)

theorem places_eq (width height : Nat) :
    places width height = (List.range (width * height)).map fun i => (i % width, i / width) := by
  induction height with
  | zero => rfl
  | succ height ih =>
      have last : (List.range width).map (·, height) = (List.range width).map
          ((fun i => (i % width, i / width)) ∘ (width * height + ·)) := by
        refine List.map_congr_left fun i inside => ?_
        have column := List.mem_range.1 inside
        rw [Function.comp_apply, Nat.mul_comm, Grid.place_mod column, Grid.place_div column]
      rw [Nat.mul_succ, List.range_add, List.map_append, List.map_map, ← last, ← ih, places, places,
        List.range_succ, List.flatMap_append, List.flatMap_singleton]

theorem mem_places {width height i j : Nat} :
    (i, j) ∈ places width height ↔ i < width ∧ j < height := by
  simp [places, and_comm]

end Pixel

namespace Graph

open PixelKernel.Language (Request Host Trap Program Value)
open Pixel (Grid places)

/-! ## Emissions -/

/-- The colours among what a kernel asks of its host to emit, in order. -/
def emitted (requests : List Request) : Array (Rgba Float32) :=
  (requests.filterMap fun
    | .emit c => some c
    | _ => none).toArray

theorem emitted_nil : emitted [] = #[] := rfl

namespace Plan

/-- What a run of the root asks of its host, if the run succeeds. -/
def requests (plan : Plan Float Float32) (budget : Nat) (p : Point Float) :
    Except Trap (List Request) :=
  match plan.nodes[plan.root]? with
  | some ⟨.kernel program args, _, _, _⟩ =>
    let access := plan.access (plan.colour (runForColour budget))
    let host : Host Unit := access.host p fun _ s => (.ok (), s)
    let run := program.run args host.recorded budget ((), [])
    run.result.map fun _ => run.state.2
  | _ => .error .noReduceRoot

variable {plan : Plan Float Float32} {budget : Nat} {p : Point Float}

/-- A host that keeps what is emitted after other colours keeps what it is asked to emit. -/
theorem alike_emitted (access : Access Float Float32) (p : Point Float)
    (rs : Array (Rgba Float32)) :
    (access.host p fun _ s => (.ok (), s) : Host Unit).recorded.Alike
      (fun s => rs ++ emitted s.2) True (access.host p fun c s => (.ok (), s.push c)) where
  destination := rfl
  sample k q s := by cases k <;> simp [Host.recorded, Access.host, emitted]
  transform k q s := by cases k <;> simp [Host.recorded, Access.host, emitted]
  extent k s := by cases k <;> simp [Host.recorded, Access.host, emitted]
  emit _ c s := by simp [Host.recorded, Access.host, emitted]

/-- Whatever was emitted before, a run adds to it what it emits. -/
theorem emit_eq (plan : Plan Float Float32) (budget : Nat) (p : Point Float)
    (rs : Array (Rgba Float32)) :
    plan.emit budget p rs = (plan.requests budget p).map (rs ++ emitted ·) := by
  unfold emit requests
  cases plan.nodes[plan.root]? with
  | none => rfl
  | some node =>
      obtain ⟨op, _, _, _⟩ := node
      cases op with
      | kernel program args =>
          let access := plan.access (plan.colour (runForColour budget))
          have same := Program.run_alike (p := program) (alike_emitted access p rs) (.inr trivial)
            args budget ((), [])
          rw [emitted_nil, Array.append_empty] at same
          simp only [same, Language.Machine.Run.map, access]
          cases Language.Machine.Run.result _ <;> rfl
      | _ => rfl

theorem emit_append (rs : Array (Rgba Float32)) :
    plan.emit budget p rs = (plan.emit budget p #[]).map (rs ++ ·) := by
  rw [emit_eq, emit_eq]
  cases plan.requests budget p with
  | error => rfl
  | ok => simp [Except.map]

variable {rect : Rect Float} {width height left : Nat}

/-- The records of the last pixels are what each of them emits. -/
theorem recordsOf_eq (few : left ≤ width * height) (rs : Array (Rgba Float32)) :
    plan.recordsOf budget rect width height left rs =
      ((List.range' (width * height - left) left).mapM fun i =>
        plan.emit budget (rect.pixelCenter width height (i % width) (i / width)) #[]).map
          fun parts => List.foldl (· ++ ·) rs parts := by
  induction left generalizing rs with
  | zero => rfl
  | succ left ih =>
      have next_ : width * height - (left + 1) + 1 = width * height - left := by omega
      simp only [recordsOf, List.range'_succ, next_, List.mapM_cons]
      rw [emit_append]
      cases plan.emit budget (rect.pixelCenter width height _ _) #[] with
      | error => rfl
      | ok part =>
          change plan.recordsOf budget rect width height left (rs ++ part) = _
          rw [ih (by omega)]
          cases List.mapM (m := Except Trap) _ _ <;> rfl

theorem records_eq (plan : Plan Float Float32) (budget : Nat) (rect : Rect Float)
    (width height : Nat) : plan.records budget rect width height =
      ((places width height).mapM fun (i, j) =>
        plan.emit budget (rect.pixelCenter width height i j) #[]).map
          fun parts => List.foldl (· ++ ·) #[] parts := by
  rw [records, recordsOf_eq le_rfl, Nat.sub_self, ← List.range_eq_range', Pixel.places_eq,
    List.mapM_map]
  rfl

theorem records_pixel : plan.records budget rect 1 1 =
    plan.emit budget (rect.pixelCenter 1 1 0 0) #[] := by
  change (plan.emit budget (rect.pixelCenter 1 1 0 0) #[] >>= fun rs => .ok rs) = _
  cases plan.emit budget (rect.pixelCenter 1 1 0 0) #[] <;> rfl

end Plan

/-! ## Tiles -/

/-- How what is seen of a rectangle with one pixel for each unit is made of parts. -/
structure Store.Tiles (s : Store Float Float32) : Prop where
  /-- A rectangle inside shows the block of texels that the whole one has there. -/
  image : ∀ (run : Nat → Runner Float Float32) limits n {rect part : Rect Float} {c d : Rect ℤ} {g},
    rect.Whole c → part.Whole d → d.Inside c →
    s.render run limits n rect c.columns c.rows = .ok g →
    s.render run limits n part d.columns d.rows = .ok (.tabulate d.columns d.rows fun i j =>
      g.texel (d.x0 - c.x0 + i) (d.y0 - c.y0 + j))
  /-- The records are those of the pixels, each one on its own and row by row, or there is the
      failure of the first that fails. -/
  records : ∀ limits k {rect : Rect Float} {c : Rect ℤ} {tile : Nat → Nat → Rect Float},
    rect.Whole c →
    (∀ i < c.columns, ∀ j < c.rows, (tile i j).Whole (.pixel (c.x0 + i) (c.y0 + j))) →
    s.reduce limits (some k) rect c.columns c.rows = do
      let _ ← Plan.forRecords s limits k
      let parts ← (places c.columns c.rows).mapM fun (i, j) =>
        s.reduce limits (some k) (tile i j) 1 1
      return List.foldl (· ++ ·) #[] parts
  /-- Each pixel adds what its run asks to emit, in order. -/
  emissions : ∀ limits k {plan}, Plan.forRecords s limits k = .ok plan → ∀ budget p rs,
    plan.emit budget p rs = (plan.requests budget p).map (rs ++ emitted ·)

namespace Store

variable {s : Store Float Float32} {c d : Rect ℤ} {rect part : Rect Float}

theorem render_part {run : Nat → Runner Float Float32} {limits : Limits} {n : Nat}
    {g : Grid Float32} (whole : rect.Whole c) (whole' : part.Whole d) (inside : d.Inside c)
    (rendered : s.render run limits n rect c.columns c.rows = .ok g) :
    s.render run limits n part d.columns d.rows = .ok (.tabulate d.columns d.rows fun i j =>
      g.texel (d.x0 - c.x0 + i) (d.y0 - c.y0 + j)) := by
  obtain ⟨-, plan, planned, made⟩ := render_eq_ok.1 rendered
  obtain ⟨width, height, colours⟩ := Grid.build_eq_ok.1 made
  refine render_eq_ok.2 ⟨whole'.isFinite, plan, planned, Grid.build_eq_ok.2 ⟨rfl, rfl, ?_⟩⟩
  intro i column j row
  obtain ⟨left, top, right, bottom⟩ := inside
  -- column and row of the pixel in the whole rectangle
  obtain ⟨i', across⟩ : ∃ i' : Nat, d.x0 - c.x0 + i = i' := ⟨(d.x0 - c.x0 + i).toNat, by omega⟩
  obtain ⟨j', down⟩ : ∃ j' : Nat, d.y0 - c.y0 + j = j' := ⟨(d.y0 - c.y0 + j).toNat, by omega⟩
  have column' : i' < c.columns := by
    simp only [Rect.columns] at column ⊢
    omega
  have row' : j' < c.rows := by
    simp only [Rect.rows] at row ⊢
    omega
  have place : part.pixelCenter d.columns d.rows i j = rect.pixelCenter c.columns c.rows i' j' := by
    rw [whole'.pixelCenter_eq column row, whole.pixelCenter_eq column' row', ← across, ← down]
    congr 1 <;> omega
  rw [Grid.texel_tabulate column row, across, down, place]
  exact colours i' column' j' row'

theorem reduce_eq {limits : Limits} {k : Nat} {plan : Plan Float Float32}
    (planned : Plan.forRecords s limits k = .ok plan) (rect : Rect Float) (width height : Nat) :
    s.reduce limits (some k) rect width height =
      (plan.records limits.instructions rect width height).mapError Fault.ofTrap := by
  rw [reduce, planned]
  rfl

/-- Steps one after the other, whose failures are reported in another way. -/
theorem mapM_mapError {α β ε ε' : Type} {l : List α} {f : α → Except ε β} {g : α → Except ε' β}
    {report : ε → ε'} (same : ∀ a ∈ l, g a = (f a).mapError report) :
    l.mapM g = (l.mapM f).mapError report := by
  induction l with
  | nil => rfl
  | cons a l ih =>
      rw [List.mapM_cons, List.mapM_cons, same a List.mem_cons_self,
        ih fun b there => same b (List.mem_cons_of_mem a there)]
      cases f a with
      | error => rfl
      | ok => cases l.mapM f <;> rfl

theorem reduce_tiles {limits : Limits} {k : Nat} {tile : Nat → Nat → Rect Float}
    (whole : rect.Whole c)
    (tiles : ∀ i < c.columns, ∀ j < c.rows, (tile i j).Whole (.pixel (c.x0 + i) (c.y0 + j))) :
    s.reduce limits (some k) rect c.columns c.rows = do
      let _ ← Plan.forRecords s limits k
      let parts ← (places c.columns c.rows).mapM fun (i, j) =>
        s.reduce limits (some k) (tile i j) 1 1
      return List.foldl (· ++ ·) #[] parts := by
  cases planned : Plan.forRecords s limits k with
  | error fault => rw [reduce, planned]; rfl
  | ok plan =>
      have each : ∀ place ∈ places c.columns c.rows,
          s.reduce limits (some k) (tile place.1 place.2) 1 1 = (plan.emit limits.instructions
            (rect.pixelCenter c.columns c.rows place.1 place.2) #[]).mapError Fault.ofTrap := by
        rintro ⟨i, j⟩ there
        obtain ⟨column, row⟩ := Pixel.mem_places.1 there
        rw [reduce_eq planned, Plan.records_pixel, (tiles i column j row).center_pixel,
          whole.pixelCenter_eq column row]
      change _ = ((places c.columns c.rows).mapM _ >>= fun parts => _)
      rw [reduce_eq planned, Plan.records_eq, mapM_mapError each]
      cases List.mapM (m := Except Trap) _ _ <;> rfl

/-- Whatever a store holds, its images and records are seen tile by tile as they are seen as a
    whole. -/
theorem tiles (s : Store Float Float32) : s.Tiles where
  image _ _ _ := render_part
  records _ _ := reduce_tiles
  emissions _ _ plan _ := plan.emit_eq

/-- A kernel that emits where each pixel is. -/
def placesSource : String :=
  "kernel __reduce void places() \x7b emit(vec4(destCoord(), 0.0, 1.0)); \x7d"

/-- Two images of the copying kernel, and the kernel that emits. -/
def placing : Store Float Float32 :=
  { twoImages with kernels := twoImages.kernels.push (Kernel.new.compile placesSource) }

/-- Of two pixels of an image, the second one alone; and what is emitted at four pixels, gathered
    from each of them. -/
theorem placing_parts : (∃ g, placing.render runForColour .standard 0 ⟨0, 0, 2, 1⟩ 2 1 = .ok g ∧
      placing.render runForColour .standard 0 ⟨1, 0, 2, 1⟩ 1 1 =
        .ok (.tabulate 1 1 fun i j => g.texel (1 - 0 + i) (0 - 0 + j))) ∧
    placing.reduce .standard (some 1) ⟨0, 0, 2, 2⟩ 2 2 =
      .ok #[⟨0.5, 0.5, 0, 1⟩, ⟨1.5, 0.5, 0, 1⟩, ⟨0.5, 1.5, 0, 1⟩, ⟨1.5, 1.5, 0, 1⟩] := by
  constructor
  · have done : (placing.render runForColour .standard 0 ⟨0, 0, 2, 1⟩ 2 1).isOk = true := by
      decide +kernel
    cases rendered : placing.render runForColour .standard 0 ⟨0, 0, 2, 1⟩ 2 1 with
    | error fault => rw [rendered] at done; cases done
    | ok g =>
        have both : (⟨0, 0, 2, 1⟩ : Rect Float).Whole ⟨0, 0, 2, 1⟩ := .ofNat (by decide)
        have second : (⟨1, 0, 2, 1⟩ : Rect Float).Whole ⟨1, 0, 2, 1⟩ := .ofNat (by decide)
        exact ⟨g, rfl, placing.tiles.image _ _ _ both second
          ⟨by decide, by decide, by decide, by decide⟩ rendered⟩
  · have whole : (⟨0, 0, 2, 2⟩ : Rect Float).Whole ⟨0, 0, 2, 2⟩ := .ofNat (by decide)
    have unit (i : Nat) (column : i < 2) (j : Nat) (row : j < 2) : (⟨Float.ofNat i, Float.ofNat j,
        Float.ofNat (i + 1), Float.ofNat (j + 1)⟩ : Rect Float).Whole (.pixel (0 + i) (0 + j)) := by
      have corners := Rect.Whole.ofNat (a := i) (b := j) (c := i + 1) (d := j + 1) (by omega)
      simpa [Rect.pixel] using corners
    exact (placing.tiles.records .standard 1 whole unit).trans (by decide +kernel)

end Store
end Graph
end PixelKernel
