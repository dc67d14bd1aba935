import PixelKernel.Proofs.Machine.Values
import PixelKernel.Proofs.Meaning.Evaluation

/-! # Lanes and places

What lowering reads off the letters of a selection and off an assignable expression is what
they mean.
-/

namespace PixelKernel.Language.Lower

theorem lane?_of_idxOf? {set : List Char} (hset : set ∈ laneSets) {c : Char} {i : Nat}
    (hi : i < 4) (h : set.idxOf? c = some i) : Meaning.lane? c = some ⟨i, hi⟩ := by
  simp only [laneSets, List.mem_cons, List.not_mem_nil, or_false] at hset
  rw [List.idxOf?, List.findIdx?_eq_some_iff_getElem] at h
  obtain ⟨bound, eq, -⟩ := h
  rcases hset with rfl | rfl | rfl
  all_goals
    obtain rfl | rfl | rfl | rfl : i = 0 ∨ i = 1 ∨ i = 2 ∨ i = 3 := by omega
    all_goals
      obtain rfl := eq_of_beq eq
      rfl

theorem readLanes_eq_ok {fields : String} {width : Nat} {set : List Char}
    (hset : set ∈ laneSets) {cs : List Char} {lanes : Selection}
    (h : readLanes fields width set cs = .ok lanes) :
    cs.mapM Meaning.lane? = some lanes ∧ (∀ i ∈ lanes, i.val < width) ∧
      lanes.length = cs.length := by
  induction cs generalizing lanes with
  | nil => cases h; exact ⟨rfl, nofun, rfl⟩
  | cons c cs ih =>
      unfold readLanes at h
      split at h
      · cases h
      · next i found =>
        split at h
        · next inside =>
          cases rest : readLanes fields width set cs with
          | error => rw [rest] at h; cases h
          | ok more =>
              rw [rest] at h
              cases h
              obtain ⟨named, below, len⟩ := ih rest
              refine ⟨?_, List.forall_mem_cons.2 ⟨inside.1, below⟩, by simp [len]⟩
              simp [List.mapM_cons, lane?_of_idxOf? hset inside.2 found, named]
        · cases h

/-- A selection that is accepted names one to four lanes of the vector. -/
theorem selection_eq_ok {fields : String} {width : Nat} {lanes : Selection}
    (h : selection fields width = .ok lanes) :
    Meaning.lanes? fields = some lanes ∧ (∀ i ∈ lanes, i.val < width) ∧
      lanes.length = fields.toList.length ∧ 1 ≤ lanes.length ∧ lanes.length ≤ 4 := by
  unfold selection at h
  dsimp only at h
  split at h
  · cases h
  · next short =>
    split at h
    · cases h
    · next set chosen =>
      obtain ⟨c, head, found⟩ := Option.bind_eq_some_iff.1 chosen
      obtain ⟨named, below, len⟩ := readLanes_eq_ok (List.mem_of_find?_eq_some found) h
      have some_ : fields.toList ≠ [] := by
        intro none_
        rw [none_] at head
        cases head
      have := List.length_pos_iff.2 some_
      exact ⟨named, below, len, by omega, by omega⟩

theorem selection_ofLanes? {fields : String} {width : Nat} {lanes : Selection}
    (h : selection fields width = .ok lanes) :
    Ty.ofLanes? lanes.length = some ((Ty.ofLanes? lanes.length).getD .float) := by
  obtain ⟨-, -, -, most⟩ := selection_eq_ok h
  obtain ⟨t, ht⟩ := Ty.isSome_ofLanes? most
  rw [ht]
  rfl

theorem lanes?_of_isVector {t : Ty} (h : t.isVector = true) :
    t.lanes? = some (t.lanes?.getD 4) := by
  cases t <;> first | rfl | cases h

/-- What is known of a place: its variable is in scope, and its lanes are lanes of it. -/
structure PlaceOf (scopes : List Scope) (e : Expr) (p : Place) (name : String) : Prop where
  found : find? scopes name = some p.var
  means : Meaning.place? e = some (name, p.lanes)
  value : p.var.ty ≠ .sampler
  lanes : ∀ lanes, p.lanes = some lanes → ∃ n, p.var.ty.operand.lanes? = some n ∧
    (∀ i ∈ lanes, i.val < n) ∧ Ty.ofLanes? lanes.length = some p.ty

theorem variablePlace_eq_ok {scopes : List Scope} {name : String} {x : Local}
    (h : variablePlace scopes name = .ok x) : find? scopes name = some x ∧ x.ty ≠ .sampler := by
  unfold variablePlace at h
  split at h
  · cases h
  · next v found =>
    split at h
    · cases h
    · split at h
      · cases h
      · next value =>
        cases h
        exact ⟨found, value⟩

/-- A place is a variable or some lanes of a vector. -/
theorem place_cases {scopes : List Scope} {e : Expr} {p : Place} (h : place scopes e = .ok p) :
    (∃ pos name, e = .var pos name ∧ variablePlace scopes name = .ok p.var ∧ p.lanes = none) ∨
      ∃ pos pos' name fields lanes, e = .select pos (.var pos' name) fields ∧
        variablePlace scopes name = .ok p.var ∧ p.lanes = some lanes ∧
        p.var.ty.operand.isVector = true ∧
        selection fields (p.var.ty.operand.lanes?.getD 4) = .ok lanes := by
  unfold place at h
  split at h
  · next pos name =>
    cases found : variablePlace scopes name with
    | error => rw [found] at h; cases h
    | ok x =>
        rw [found] at h
        cases h
        exact .inl ⟨pos, name, rfl, found, rfl⟩
  · next pos pos' name fields =>
    cases found : variablePlace scopes name with
    | error => rw [found] at h; cases h
    | ok x =>
        rw [found] at h
        simp only [bind, Except.bind] at h
        split at h
        · cases h
        · next vector =>
          simp only [Bool.not_eq_true, Bool.not_eq_false'] at vector
          cases read : selection fields (x.ty.operand.lanes?.getD 4) with
          | error => rw [read] at h; cases h
          | ok lanes =>
              rw [read] at h
              dsimp only at h
              split at h
              · cases h
              · cases h
                exact .inr ⟨pos, pos', name, fields, lanes, rfl, found, rfl, vector, read⟩
  · cases h

theorem place_eq_ok {scopes : List Scope} {e : Expr} {p : Place} (h : place scopes e = .ok p) :
    ∃ name, PlaceOf scopes e p name := by
  rcases place_cases h with ⟨_, name, rfl, found, whole⟩ |
    ⟨_, _, name, fields, lanes, rfl, found, picked, vector, read⟩
  · obtain ⟨inScope, value⟩ := variablePlace_eq_ok found
    exact ⟨name, inScope, by rw [whole]; rfl, value, by rw [whole]; nofun⟩
  · obtain ⟨inScope, value⟩ := variablePlace_eq_ok found
    obtain ⟨named, below, -⟩ := selection_eq_ok read
    refine ⟨name, inScope, ?_, value, fun lanes' same => ?_⟩
    · simp [Meaning.place?, named, picked]
    · cases picked.symm.trans same
      refine ⟨_, lanes?_of_isVector vector, below, ?_⟩
      rw [selection_ofLanes? read, Place.ty, picked]

end PixelKernel.Language.Lower
