import PixelKernel.Proofs.Code.Placement

/-! # Slots on the ways through code

A slot is told to be set at a place of the code if it has been set on all ways to the place. Regions
of code are put together the way chunks are, and say under which condition a slot is set behind them
if it is set in front of them under another. So it is told of whole functions that they set a slot
before they read it.
-/

namespace PixelKernel.Language

/-- The instruction needs what the slot holds. -/
def Op.Reads (x : Nat) : Op → Prop
  | .load slot | .storeLanes slot _ => slot.toNat = x
  | _ => False

/-- The instruction puts a new value into the slot, whatever it held. -/
def Op.Sets (x : Nat) : Op → Prop
  | .store slot => slot.toNat = x
  | _ => False

def Op.offset? : Op → Option Int32
  | .jump offset | .jumpIfFalse offset | .jumpIfTrue offset => some offset
  | _ => none

/-- Some way to `pc` sets nothing in the slot, which is not a parameter's. Ways go on behind every
    instruction, even if control does not. -/
inductive Function.Unset (f : Function) (x : Nat) : Nat → Prop where
  | start (own : f.params.length ≤ x) : Unset f x 0
  | next {pc o} (before : Unset f x pc) (op : f.code[pc]? = some o) (other : ¬o.Sets x) :
      Unset f x (pc + 1)
  | jump {pc o offset target} (before : Unset f x pc) (op : f.code[pc]? = some o)
      (jumps : o.offset? = some offset) (lands : Leads f.code pc offset target) :
      Unset f x target

/-- Where a slot is read it has been set, on every way there. -/
def Function.SetsFirst (f : Function) : Prop :=
  ∀ x pc o, f.Unset x pc → f.code[pc]? = some o → ¬o.Reads x

/-! ## Regions of code -/

section

variable {code : Array Op} {x : Nat} {away : Nat → Prop} {sure : Nat → Prop} {pc m pc' : Nat}
  {before after : Prop}

/-- Between `pc` and `pc'` a slot is read where it is sure to be set, and it is sure to be set where
    it has been on all ways there. Jumps stay inside or lead `away`. -/
structure Upholds (code : Array Op) (x : Nat) (away sure : Nat → Prop) (pc pc' : Nat) : Prop where
  reads : ∀ i o, pc ≤ i → i < pc' → code[i]? = some o → o.Reads x → sure i
  next : ∀ i o, pc ≤ i → i < pc' → code[i]? = some o → sure (i + 1) → sure i ∨ o.Sets x
  jumps : ∀ i o k, pc ≤ i → i < pc' → code[i]? = some o → o.offset? = some k →
    ∃ t, Leads code i k t ∧ (away t ∨ pc ≤ t ∧ t ≤ pc' ∧ (sure t → sure i))

/-- A slot that is set at `pc` under the condition `before` is set at `pc'` under the condition
    `after`, and it is read in between only where it is set. -/
def Tracks (code : Array Op) (x : Nat) (away : Nat → Prop) (pc pc' : Nat) (before after : Prop) :
    Prop :=
  pc ≤ pc' ∧ ∃ sure, Upholds code x away sure pc pc' ∧ (sure pc → before) ∧ (sure pc' ↔ after) ∧
    (before → ∀ i, sure i)

namespace Tracks

theorem nil : Tracks code x away pc pc before before :=
  ⟨Nat.le_refl _, fun _ => before, ⟨by omega, by omega, by omega⟩, id, .rfl, fun h _ => h⟩

/-- An instruction that does not set the slot for the first time. -/
theorem op {o : Op} (at_ : code[pc]? = some o) (reads : o.Reads x → before)
    (jumps : ∀ k, o.offset? = some k → ∃ t, Leads code pc k t ∧ away t) :
    Tracks code x away pc (pc + 1) before before := by
  have only {i : Nat} {o' : Op} (low : pc ≤ i) (high : i < pc + 1) (there : code[i]? = some o') :
      i = pc ∧ o' = o := by
    obtain rfl : i = pc := by omega
    exact ⟨rfl, Option.some.inj (there.symm.trans at_)⟩
  refine ⟨Nat.le_succ _, fun _ => before, ⟨fun i o' low high there => ?_, fun _ _ _ _ _ => .inl,
    fun i o' k low high there => ?_⟩, id, .rfl, fun h _ => h⟩
  · obtain ⟨rfl, rfl⟩ := only low high there
    exact reads
  · obtain ⟨rfl, rfl⟩ := only low high there
    intro leads
    obtain ⟨t, lands, left⟩ := jumps k leads
    exact ⟨t, lands, .inl left⟩

theorem store {slot : UInt16} (at_ : code[pc]? = some (.store slot))
    (same : after ↔ before ∨ slot.toNat = x) : Tracks code x away pc (pc + 1) before after := by
  refine ⟨Nat.le_succ _, fun i => if i = pc then before else after, ⟨?_, ?_, ?_⟩, ?_, ?_, ?_⟩
  · intro i o low high there reads
    obtain rfl : i = pc := by omega
    cases at_.symm.trans there
    exact reads.elim
  · intro i o low high there set
    obtain rfl : i = pc := by omega
    cases at_.symm.trans there
    rw [if_neg (by omega)] at set
    rw [if_pos rfl]
    exact same.1 set
  · intro i o k low high there leads
    obtain rfl : i = pc := by omega
    cases at_.symm.trans there
    cases leads
  · dsimp only
    rw [if_pos rfl]
    exact id
  · dsimp only
    rw [if_neg (by omega)]
  · intro h i
    split
    · exact h
    · exact same.2 (.inl h)

theorem append {between : Prop} (first : Tracks code x away pc m before between)
    (second : Tracks code x away m pc' between after) : Tracks code x away pc pc' before after := by
  obtain ⟨le, s₁, kept₁, start₁, end₁, all₁⟩ := first
  obtain ⟨le', s₂, kept₂, start₂, end₂, all₂⟩ := second
  have joint (h : s₂ m) : s₁ m := end₁.2 (start₂ h)
  refine ⟨Nat.le_trans le le', fun i => if i < m then s₁ i else s₂ i, ⟨?_, ?_, ?_⟩, ?_, ?_, ?_⟩
  · intro i o low high there reads
    split
    next inside => exact kept₁.reads i o low inside there reads
    next behind => exact kept₂.reads i o (Nat.not_lt.1 behind) high there reads
  · intro i o low high there set
    by_cases inside : i < m
    · rw [if_pos inside]
      refine kept₁.next i o low inside there ?_
      split at set
      next => exact set
      next behind =>
        obtain rfl : m = i + 1 := by omega
        exact joint set
    · rw [if_neg inside]
      rw [if_neg (by omega)] at set
      exact kept₂.next i o (Nat.not_lt.1 inside) high there set
  · intro i o k low high there leads
    by_cases inside : i < m
    · obtain ⟨t, lands, left | ⟨low', high', back⟩⟩ := kept₁.jumps i o k low inside there leads
      · exact ⟨t, lands, .inl left⟩
      · refine ⟨t, lands, .inr ⟨low', Nat.le_trans high' le', fun set => ?_⟩⟩
        rw [if_pos inside]
        refine back ?_
        split at set
        next => exact set
        next behind =>
          obtain rfl : m = t := by omega
          exact joint set
    · obtain ⟨t, lands, left | ⟨low', high', back⟩⟩ :=
        kept₂.jumps i o k (Nat.not_lt.1 inside) high there leads
      · exact ⟨t, lands, .inl left⟩
      · refine ⟨t, lands, .inr ⟨Nat.le_trans le low', high', fun set => ?_⟩⟩
        rw [if_neg inside]
        rw [if_neg (by omega)] at set
        exact back set
  · intro set
    split at set
    next => exact start₁ set
    next behind =>
      obtain rfl : m = pc := by omega
      exact start₁ (joint set)
  · dsimp only
    rw [if_neg (by omega)]
    exact end₂
  · intro h i
    split
    · exact all₁ h i
    · exact all₂ (end₁.1 (all₁ h m)) i

/-- A variable that goes out of scope need not count as set. -/
theorem leave {after' : Prop} (h : Tracks code x away pc pc' before after)
    (outer : before → after') (inner : after' → after) :
    Tracks code x away pc pc' before after' := by
  obtain ⟨le, s, kept, start, end_, all⟩ := h
  have less {i : Nat} (h : if i = pc' then after' else s i) : s i := by
    split at h
    next last => exact last ▸ end_.2 (inner h)
    next => exact h
  refine ⟨le, fun i => if i = pc' then after' else s i, ⟨?_, ?_, ?_⟩, fun h => start (less h), ?_,
    ?_⟩
  · intro i o low high there reads
    rw [if_neg (by omega)]
    exact kept.reads i o low high there reads
  · intro i o low high there set
    rw [if_neg (by omega)]
    exact kept.next i o low high there (less set)
  · intro i o k low high there leads
    obtain ⟨t, lands, back⟩ := kept.jumps i o k low high there leads
    rw [if_neg (by omega)]
    exact ⟨t, lands, back.imp_right fun h => ⟨h.1, h.2.1, fun set => h.2.2 (less set)⟩⟩
  · dsimp only
    rw [if_pos rfl]
  · intro h i
    split
    · exact outer h
    · exact all h i

theorem mono {away' : Nat → Prop} (h : Tracks code x away pc pc' before after)
    (more : ∀ t, away t → away' t) : Tracks code x away' pc pc' before after := by
  obtain ⟨le, s, kept, rest⟩ := h
  refine ⟨le, s, ⟨kept.reads, kept.next, fun i o k low high there leads => ?_⟩, rest⟩
  obtain ⟨t, lands, back⟩ := kept.jumps i o k low high there leads
  exact ⟨t, lands, back.imp_left (more t)⟩

/-- Jumps may lead back to the start. -/
theorem closeStart (h : Tracks code x (fun t => away t ∨ t = pc) pc pc' before after) :
    Tracks code x away pc pc' before after := by
  obtain ⟨le, s, kept, start, rest, all⟩ := h
  refine ⟨le, s, ⟨kept.reads, kept.next, fun i o k low high there leads => ?_⟩, start, rest, all⟩
  obtain ⟨t, lands, (left | rfl) | inside⟩ := kept.jumps i o k low high there leads
  · exact ⟨t, lands, .inl left⟩
  · exact ⟨t, lands, .inr ⟨Nat.le_refl _, le, fun set => all (start set) i⟩⟩
  · exact ⟨t, lands, .inr inside⟩

/-- Jumps may lead to the end, if it takes nothing to be set but what is set from the start. -/
theorem closeEnd (h : Tracks code x (fun t => away t ∨ t = pc') pc pc' before before) :
    Tracks code x away pc pc' before before := by
  obtain ⟨le, s, kept, start, end_, all⟩ := h
  refine ⟨le, s, ⟨kept.reads, kept.next, fun i o k low high there leads => ?_⟩, start, end_, all⟩
  obtain ⟨t, lands, (left | rfl) | inside⟩ := kept.jumps i o k low high there leads
  · exact ⟨t, lands, .inl left⟩
  · exact ⟨t, lands, .inr ⟨le, Nat.le_refl _, fun set => all (end_.1 set) i⟩⟩
  · exact ⟨t, lands, .inr inside⟩

/-- The test of a choice or a loop, whose jump leads away. -/
theorem branch {cond : List Op} {stop : Nat}
    (test : ∀ {q q'}, OpsAt code q cond q' → Tracks code x (fun _ => False) q q' before before)
    (h : BranchAt code pc cond stop pc') :
    Tracks code x (fun t => away t ∨ t = stop) pc pc' before before := by
  obtain ⟨m, skip, condAt, branch, lands, rfl⟩ := h
  refine ((test condAt).mono (fun _ => False.elim)).append (op branch False.elim ?_)
  rintro _ ⟨⟩
  exact ⟨stop, lands, .inr rfl⟩

end Tracks

/-! ## Chunks -/

/-- Where the open jumps of a chunk lead. -/
def Leaves (loop : Option Loop) (t : Nat) : Prop := ∃ l ∈ loop, t = l.stop ∨ t = l.again

theorem not_leaves_none (t : Nat) : ¬Leaves none t := by
  rintro ⟨l, ⟨⟩, -⟩

variable {loop : Option Loop} {cond : List Op}

theorem Chunk.closeLoop_ne_nil {again : Nat} {c : Chunk} (full : c ≠ []) :
    Chunk.closeLoop again c ≠ [] := by
  refine List.ne_nil_of_length_pos ?_
  rw [Chunk.closeLoop, Chunk.length_closeFrom]
  exact List.length_pos_iff.2 full

theorem ChunkAt.start_le {c : Chunk} (h : ChunkAt code loop pc c pc') (full : c ≠ []) :
    pc ≤ code.size := by
  cases h with
  | nil => exact absurd rfl full
  | cons head => exact Nat.le_of_lt head.lt_size

namespace Tracks

section

variable (short : code.size < 2 ^ 31)
  (test : ∀ {q q'}, OpsAt code q cond q' → Tracks code x (fun _ => False) q q' before before)
include short test

theorem ifThen {yes : Chunk}
    (inner : ∀ {q q'}, ChunkAt code loop q yes q' → Tracks code x (Leaves loop) q q' before before)
    (h : ChunkAt code loop pc (.ifThen cond yes) pc') :
    Tracks code x (Leaves loop) pc pc' before before := by
  obtain ⟨m, branchAt, yesAt⟩ := ChunkAt.ifThen short h
  exact ((branch test branchAt).append ((inner yesAt).mono fun _ => .inl)).closeEnd

theorem ifElse {yes no : Chunk}
    (inner : ∀ {q q'}, ChunkAt code loop q yes q' → Tracks code x (Leaves loop) q q' before before)
    (other : ∀ {q q'}, ChunkAt code loop q no q' → Tracks code x (Leaves loop) q q' before before)
    (h : ChunkAt code loop pc (.ifElse cond yes no) pc') :
    Tracks code x (Leaves loop) pc pc' before before := by
  obtain ⟨m₁, m₂, branchAt, yesAt, ⟨offset, past, lands⟩, noAt⟩ := ChunkAt.ifElse short h
  have skip : Tracks code x (fun t => (Leaves loop t ∨ t = pc') ∨ t = m₂ + 1) m₂ (m₂ + 1)
      before before :=
    op past False.elim fun k leads => by cases leads; exact ⟨pc', lands, .inl (.inr rfl)⟩
  have first := (branch test branchAt).append
    (((inner yesAt).mono fun _ left => .inl (.inl left)).append skip)
  exact (first.closeEnd.append ((other noAt).mono fun _ => .inl)).closeEnd

theorem testLast {body : Chunk}
    (inner : ∀ {loop q q'}, ChunkAt code loop q body q' →
      Tracks code x (Leaves loop) q q' before before)
    (h : ChunkAt code loop pc (.testLast body cond) pc') :
    Tracks code x away pc pc' before before := by
  have start : pc ≤ code.size :=
    ChunkAt.start_le h (by simp [Chunk.testLast, Chunk.closeLoop_ne_nil])
  obtain ⟨m₁, m₂, skip, bodyAt, condAt, branch, lands, rfl⟩ := ChunkAt.testLast short start h
  have turn : Tracks code x (fun t => (away t ∨ t = m₂ + 1) ∨ t = pc) m₂ (m₂ + 1) before before :=
    op branch False.elim fun k leads => by cases leads; exact ⟨pc, lands, .inr rfl⟩
  have body : Tracks code x (fun t => (away t ∨ t = m₂ + 1) ∨ t = pc) pc m₁ before before := by
    refine ((inner bodyAt).mono ?_).closeEnd
    rintro t ⟨_, ⟨⟩, stop | again⟩
    · exact .inl (.inl (.inr stop))
    · exact .inr again
  exact (body.append (((test condAt).mono fun _ => False.elim).append turn)).closeStart.closeEnd

omit test in
theorem testFirst {cond next : Option (List Op)} {body : Chunk}
    (test : ∀ ops ∈ cond, ∀ {q q'}, OpsAt code q ops q' →
      Tracks code x (fun _ => False) q q' before before)
    (inner : ∀ {loop q q'}, ChunkAt code loop q body q' →
      Tracks code x (Leaves loop) q q' before before)
    (step : ∀ {q q'}, OpsAt code q (next.getD []) q' →
      Tracks code x (fun _ => False) q q' before before)
    (h : ChunkAt code loop pc (.testFirst cond body next) pc') :
    Tracks code x away pc pc' before before := by
  have start : pc ≤ code.size :=
    ChunkAt.start_le h (by simp [Chunk.testFirst, Chunk.closeLoop_ne_nil])
  obtain ⟨m₁, m₂, m₃, testAt, bodyAt, stepAt, ⟨offset, back, lands⟩, rfl⟩ :=
    ChunkAt.testFirst short start h
  have turn : Tracks code x (fun t => (away t ∨ t = m₃ + 1) ∨ t = pc) m₃ (m₃ + 1) before before :=
    op back False.elim fun k leads => by cases leads; exact ⟨pc, lands, .inr rfl⟩
  have tested : Tracks code x (fun t => (away t ∨ t = m₃ + 1) ∨ t = pc) pc m₁ before before := by
    cases cond with
    | none =>
        obtain rfl : m₁ = pc := testAt
        exact nil
    | some ops => exact (branch (test ops rfl) testAt).mono fun _ => .inl
  have body : Tracks code x (fun t => (away t ∨ t = m₃ + 1) ∨ t = pc) m₁ m₂ before before := by
    refine ((inner bodyAt).mono ?_).closeEnd
    rintro t ⟨_, ⟨⟩, stop | again⟩
    · exact .inl (.inl (.inr stop))
    · dsimp only at again
      split at again
      · exact .inr again
      · exact .inl (.inr again)
  exact (tested.append (body.append (((step stepAt).mono fun _ => False.elim).append
    turn))).closeStart.closeEnd

end

end Tracks

end

/-- Whole code that starts with its arguments in place sets every other slot before it reads it. -/
theorem Function.SetsFirst.of_tracks {f : Function} (before after : Nat → Prop)
    (h : ∀ x, Tracks f.code x (fun _ => False) 0 f.code.size (before x) (after x))
    (given : ∀ x, before x → x < f.params.length) : f.SetsFirst := by
  intro x pc o unset there reads
  obtain ⟨-, sure, kept, start, -⟩ := h x
  have never : ¬sure pc := by
    clear there reads
    induction unset with
    | start own => exact fun set => Nat.not_lt.2 own (given x (start set))
    | next _ op other ih =>
        intro set
        rcases kept.next _ _ (Nat.zero_le _) (lt_size_of_op op) op set with before | sets
        · exact ih before
        · exact other sets
    | jump _ op jumps lands ih =>
        intro set
        obtain ⟨t, lands', none_ | ⟨-, -, back⟩⟩ :=
          kept.jumps _ _ _ (Nat.zero_le _) (lt_size_of_op op) op jumps
        · exact none_.elim
        · cases lands.symm.trans lands'
          exact ih (back set)
  exact never (kept.reads pc o (Nat.zero_le _) (lt_size_of_op there) there reads)

end PixelKernel.Language
