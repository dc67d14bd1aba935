import PixelKernel.Language.Code.Chunk
import PixelKernel.Language.Machine

/-! # Where code stands

A list of instructions placed at an index of a function's code, and chunks placed so that
their open jumps lead where the enclosing loop says.
-/

namespace PixelKernel.Language

/-- The entries of a list stand one behind the other from `pc` up to `pc'`. -/
inductive Placed {α : Type} (At : Nat → α → Prop) : Nat → List α → Nat → Prop where
  | nil {pc} : Placed At pc [] pc
  | cons {pc x xs pc'} (head : At pc x) (tail : Placed At (pc + 1) xs pc') :
      Placed At pc (x :: xs) pc'

namespace Placed

variable {α β : Type} {At : Nat → α → Prop} {pc pc' : Nat} {xs ys : List α}

theorem length (h : Placed At pc xs pc') : pc' = pc + xs.length := by
  induction h with
  | nil => rfl
  | cons _ _ ih => rw [ih, List.length_cons]; omega

theorem append : Placed At pc (xs ++ ys) pc' ↔ ∃ m, Placed At pc xs m ∧ Placed At m ys pc' := by
  induction xs generalizing pc with
  | nil =>
      refine ⟨fun h => ⟨pc, .nil, h⟩, fun ⟨m, h, rest⟩ => ?_⟩
      cases h
      exact rest
  | cons x xs ih =>
      refine ⟨fun h => ?_, fun ⟨m, h, rest⟩ => ?_⟩
      · cases h with
        | cons head tail =>
            obtain ⟨m, first, rest⟩ := ih.1 tail
            exact ⟨m, .cons head first, rest⟩
      · cases h with
        | cons head tail => exact .cons head (ih.2 ⟨m, tail, rest⟩)

theorem cons_iff {x : α} : Placed At pc (x :: xs) pc' ↔ At pc x ∧ Placed At (pc + 1) xs pc' :=
  ⟨fun | .cons head tail => ⟨head, tail⟩, fun h => .cons h.1 h.2⟩

theorem nil_iff : Placed At pc [] pc' ↔ pc' = pc :=
  ⟨fun | .nil => rfl, fun h => h ▸ .nil⟩

theorem le {n : Nat} (h : Placed At pc xs pc') (inside : ∀ i x, At i x → i < n) (start : pc ≤ n) :
    pc' ≤ n := by
  induction h with
  | nil => exact start
  | cons head _ ih => exact ih (inside _ _ head)

theorem map {At' : Nat → β → Prop} {f : α → β} (h : Placed At' pc (xs.map f) pc')
    (imp : ∀ i x, At' i (f x) → At i x) : Placed At pc xs pc' := by
  induction xs generalizing pc with
  | nil => cases h; exact .nil
  | cons x xs ih =>
      cases h with
      | cons head tail => exact .cons (imp _ _ head) (ih tail)

end Placed

/-- Instructions that stand in the code. -/
abbrev OpsAt (code : Array Op) : Nat → List Op → Nat → Prop :=
  Placed fun pc o => code[pc]? = some o

theorem lt_size_of_op {code : Array Op} {pc : Nat} {o : Op} (h : code[pc]? = some o) :
    pc < code.size :=
  (Array.getElem?_eq_some_iff.1 h).1

theorem OpsAt.le_size {code : Array Op} {pc pc' : Nat} {ops : List Op} (h : OpsAt code pc ops pc')
    (start : pc ≤ code.size) : pc' ≤ code.size :=
  h.le (fun _ _ => lt_size_of_op) start

theorem opsAt_append (before ops : List Op) :
    OpsAt (before ++ ops).toArray before.length ops (before.length + ops.length) := by
  induction ops generalizing before with
  | nil => exact .nil
  | cons o rest ih =>
      have tail := ih (before ++ [o])
      rw [List.length_append, List.append_assoc, List.length_singleton] at tail
      rw [List.length_cons, Nat.add_comm rest.length, ← Nat.add_assoc]
      exact .cons (by simp) tail

/-- A jump at `site` leads to `target`. -/
def Leads (code : Array Op) (site : Nat) (offset : Int32) (target : Nat) : Prop :=
  Machine.jumpTarget site offset code.size = .ok target

def JumpAt (code : Array Op) (site target : Nat) : Prop :=
  ∃ offset, code[site]? = some (.jump offset) ∧ Leads code site offset target

theorem JumpAt.lt_size {code : Array Op} {site target : Nat} (h : JumpAt code site target) :
    site < code.size := by
  obtain ⟨_, jump, -⟩ := h
  exact lt_size_of_op jump

/-- Where the jumps out of a loop's body lead. -/
structure Loop where
  stop : Nat
  again : Nat

inductive StepAt (code : Array Op) : Option Loop → Nat → Step → Prop where
  | op {loop pc o} (h : code[pc]? = some o) : StepAt code loop pc (.op o)
  | breakOut {loop pc} (h : JumpAt code pc loop.stop) : StepAt code (some loop) pc .breakOut
  | continueOn {loop pc} (h : JumpAt code pc loop.again) : StepAt code (some loop) pc .continueOn

/-- A chunk that stands in the code, inside the given loop. -/
abbrev ChunkAt (code : Array Op) (loop : Option Loop) : Nat → Chunk → Nat → Prop :=
  Placed (StepAt code loop)

variable {code : Array Op} {loop : Option Loop} {pc pc' : Nat}

theorem StepAt.lt_size {x : Step} (h : StepAt code loop pc x) : pc < code.size := by
  cases h with
  | op h => exact lt_size_of_op h
  | breakOut h => exact h.lt_size
  | continueOn h => exact h.lt_size

theorem ChunkAt.le_size {c : Chunk} (h : ChunkAt code loop pc c pc') (start : pc ≤ code.size) :
    pc' ≤ code.size :=
  h.le (fun _ _ => StepAt.lt_size) start

theorem ChunkAt.ofOps {ops : List Op} (h : ChunkAt code loop pc (.ofOps ops) pc') :
    OpsAt code pc ops pc' :=
  h.map fun | _, _, .op h => h

theorem ChunkAt.op_iff {o : Op} {rest : Chunk} : ChunkAt code loop pc (.op o :: rest) pc' ↔
    code[pc]? = some o ∧ ChunkAt code loop (pc + 1) rest pc' := by
  rw [ChunkAt, Placed.cons_iff]
  exact and_congr_left fun _ => ⟨fun | .op h => h, .op⟩

theorem ChunkAt.append {a b : Chunk} : ChunkAt code loop pc (a ++ b) pc' ↔
    ∃ m, ChunkAt code loop pc a m ∧ ChunkAt code loop m b pc' :=
  Placed.append

/-- Distances between places of the code fit into a word. -/
theorem leads_distance (base site target : Nat) (short : code.size < 2 ^ 31)
    (start : base + site ≤ code.size) (stop : base + target ≤ code.size) :
    Leads code (base + site) (Chunk.distance site target) (base + target) := by
  have word : (Chunk.distance site target).toInt = (target : Int) - site :=
    Int32.toInt_ofInt_of_le (by omega) (by omega)
  unfold Leads Machine.jumpTarget
  dsimp only
  rw [word, if_neg (by omega)]
  congr 1
  omega

theorem leads_ahead {site n target : Nat} (short : code.size < 2 ^ 31) (inside : target ≤ code.size)
    (h : target = site + n) : Leads code site (Chunk.distance 0 n) target := by
  subst h
  exact leads_distance site 0 n short (by omega) inside

theorem Chunk.length_closeFrom (site again stop : Nat) (c : Chunk) :
    (closeFrom site again stop c).length = c.length := by
  induction c generalizing site with
  | nil => rfl
  | cons x rest ih => cases x <;> exact congrArg (· + 1) (ih _)

/-- Closing a loop makes its open jumps lead where the loop says. -/
theorem ChunkAt.of_closeFrom {base site again stop : Nat} {c : Chunk} (short : code.size < 2 ^ 31)
    (before : base + again ≤ code.size) (behind : base + stop ≤ code.size)
    (h : ChunkAt code loop (base + site) (Chunk.closeFrom site again stop c) pc') :
    ChunkAt code (some ⟨base + stop, base + again⟩) (base + site) c pc' := by
  induction c generalizing site with
  | nil => cases h; exact .nil
  | cons x rest ih =>
      cases x with
      | op o =>
          obtain ⟨head, tail⟩ := ChunkAt.op_iff.1 h
          exact .cons (.op head) (@ih (site + 1) tail)
      | breakOut =>
          obtain ⟨head, tail⟩ := ChunkAt.op_iff.1 h
          have site_le : base + site ≤ code.size := Nat.le_of_lt (lt_size_of_op head)
          exact .cons (.breakOut ⟨_, head, leads_distance base site _ short site_le behind⟩) (@ih (site + 1) tail)
      | continueOn =>
          obtain ⟨head, tail⟩ := ChunkAt.op_iff.1 h
          have site_le : base + site ≤ code.size := Nat.le_of_lt (lt_size_of_op head)
          exact .cons (.continueOn ⟨_, head, leads_distance base site _ short site_le before⟩) (@ih (site + 1) tail)

/-- A closed loop stands where its open jumps lead as they should. -/
theorem ChunkAt.of_closeLoop {again : Nat} {c : Chunk} (short : code.size < 2 ^ 31)
    (start : pc ≤ code.size) (inside : again ≤ c.length)
    (h : ChunkAt code loop pc (Chunk.closeLoop again c) pc') :
    ChunkAt code (some ⟨pc', pc + again⟩) pc c pc' := by
  have behind := h.le_size start
  have len := h.length
  rw [Chunk.closeLoop, Chunk.length_closeFrom] at len
  subst len
  have h : ChunkAt code loop (pc + 0) (Chunk.closeFrom 0 again c.length c) (pc + c.length) := h
  exact h.of_closeFrom short (by omega) behind

/-- The test of a loop or choice: what is not fulfilled goes on at `stop`. -/
def BranchAt (code : Array Op) (pc : Nat) (cond : List Op) (stop pc' : Nat) : Prop :=
  ∃ m skip, OpsAt code pc cond m ∧ code[m]? = some (.jumpIfFalse skip) ∧
    Leads code m skip stop ∧ pc' = m + 1

/-- The test of a loop that may have none. -/
def MayBranchAt (code : Array Op) (pc : Nat) (cond : Option (List Op)) (stop pc' : Nat) : Prop :=
  match cond with
  | none => pc' = pc
  | some c => BranchAt code pc c stop pc'

theorem BranchAt.le_size {cond : List Op} {stop : Nat} (h : BranchAt code pc cond stop pc') :
    pc' ≤ code.size := by
  obtain ⟨m, skip, -, branch, -, rfl⟩ := h
  exact lt_size_of_op branch

theorem ChunkAt.ifThen {cond : List Op} {yes : Chunk} (short : code.size < 2 ^ 31)
    (h : ChunkAt code loop pc (Chunk.ifThen cond yes) pc') :
    ∃ m, BranchAt code pc cond pc' m ∧ ChunkAt code loop m yes pc' := by
  obtain ⟨m, test, rest⟩ := ChunkAt.append.1 h
  obtain ⟨branch, yesAt⟩ := ChunkAt.op_iff.1 rest
  have lands := leads_ahead short (yesAt.le_size (lt_size_of_op branch))
    (show pc' = m + (yes.length + 1) by rw [yesAt.length]; omega)
  exact ⟨m + 1, ⟨m, _, test.ofOps, branch, lands, rfl⟩, yesAt⟩

theorem ChunkAt.ifElse {cond : List Op} {yes no : Chunk} (short : code.size < 2 ^ 31)
    (h : ChunkAt code loop pc (Chunk.ifElse cond yes no) pc') :
    ∃ m₁ m₂, BranchAt code pc cond (m₂ + 1) m₁ ∧ ChunkAt code loop m₁ yes m₂ ∧
      JumpAt code m₂ pc' ∧ ChunkAt code loop (m₂ + 1) no pc' := by
  obtain ⟨m₂, first, rest⟩ := ChunkAt.append.1 h
  obtain ⟨m, test, rest'⟩ := ChunkAt.append.1 first
  obtain ⟨branch, yesAt⟩ := ChunkAt.op_iff.1 rest'
  obtain ⟨past, noAt⟩ := ChunkAt.op_iff.1 rest
  have lands := leads_ahead short (lt_size_of_op past)
    (show m₂ + 1 = m + (yes.length + 2) by rw [yesAt.length]; omega)
  have landsOver := leads_ahead short (noAt.le_size (lt_size_of_op past))
    (show pc' = m₂ + (no.length + 1) by rw [noAt.length]; omega)
  exact ⟨m + 1, m₂, ⟨m, _, test.ofOps, branch, lands, rfl⟩, yesAt, ⟨_, past, landsOver⟩, noAt⟩

/-- A loop that ends with a jump back to its start. -/
theorem ChunkAt.turns {test body : Chunk} {step : List Op} {again back : Nat}
    (short : code.size < 2 ^ 31) (start : pc ≤ code.size)
    (last : back = test.length + body.length + step.length) (inside : again ≤ back)
    (h : ChunkAt code loop pc (Chunk.closeLoop again
      (test ++ body ++ Chunk.ofOps step ++ [.op (.jump (Chunk.distance back 0))])) pc') :
    ∃ m₁ m₂ m₃, ChunkAt code (some ⟨m₃ + 1, pc + again⟩) pc test m₁ ∧
      ChunkAt code (some ⟨m₃ + 1, pc + again⟩) m₁ body m₂ ∧ OpsAt code m₂ step m₃ ∧
      JumpAt code m₃ pc ∧ pc' = m₃ + 1 ∧ m₂ = pc + (test.length + body.length) := by
  have h := h.of_closeLoop short start (by simp [Chunk.ofOps]; omega)
  obtain ⟨m₃, rest, end_⟩ := ChunkAt.append.1 h
  obtain ⟨jump, rest'⟩ := ChunkAt.op_iff.1 end_
  obtain rfl := Placed.nil_iff.1 rest'
  obtain ⟨m₂, rest, stepAt⟩ := ChunkAt.append.1 rest
  obtain ⟨m₁, testAt, bodyAt⟩ := ChunkAt.append.1 rest
  have testEnd := testAt.length
  have bodyEnd := bodyAt.length
  have stepEnd := stepAt.ofOps.length
  have site : m₃ = pc + back := by omega
  have lands := leads_distance pc back 0 short (by have := lt_size_of_op jump; omega) start
  rw [← site] at lands
  exact ⟨m₁, m₂, m₃, testAt, bodyAt, stepAt.ofOps, ⟨_, jump, lands⟩, rfl, by omega⟩

theorem ChunkAt.test {c : List Op} {n m stop : Nat} (short : code.size < 2 ^ 31)
    (inside : stop ≤ code.size) (behind : stop + 1 = m + n)
    (h : ChunkAt code loop pc (Chunk.ofOps c ++ [.op (.jumpIfFalse (Chunk.distance 0 n))]) m) :
    BranchAt code pc c stop m := by
  obtain ⟨m, cond, last⟩ := ChunkAt.append.1 h
  obtain ⟨branch, rest⟩ := ChunkAt.op_iff.1 last
  obtain rfl := Placed.nil_iff.1 rest
  exact ⟨m, _, cond.ofOps, branch, leads_ahead short inside (by omega), rfl⟩

theorem ChunkAt.testFirst {cond : Option (List Op)} {body : Chunk} {next : Option (List Op)}
    (short : code.size < 2 ^ 31) (start : pc ≤ code.size)
    (h : ChunkAt code loop pc (Chunk.testFirst cond body next) pc') :
    ∃ m₁ m₂ m₃, MayBranchAt code pc cond (m₃ + 1) m₁ ∧
      ChunkAt code (some ⟨m₃ + 1, if next.isSome then m₂ else pc⟩) m₁ body m₂ ∧
      OpsAt code m₂ (next.getD []) m₃ ∧ JumpAt code m₃ pc ∧ pc' = m₃ + 1 := by
  unfold Chunk.testFirst at h
  dsimp only at h
  obtain ⟨m₁, m₂, m₃, test, bodyAt, step, back, rfl, second⟩ :=
    ChunkAt.turns short start rfl (by split <;> omega) h
  refine ⟨m₁, m₂, m₃, ?_, ?_, step, back, rfl⟩
  · cases cond with
    | none => exact Placed.nil_iff.1 test
    | some c =>
        have bodyEnd := bodyAt.length
        have stepEnd := step.length
        exact test.test short back.lt_size (by omega)
  · subst second
    cases next with
    | none => exact bodyAt
    | some c => exact bodyAt

theorem ChunkAt.testLast {body : Chunk} {cond : List Op} (short : code.size < 2 ^ 31)
    (start : pc ≤ code.size) (h : ChunkAt code loop pc (Chunk.testLast body cond) pc') :
    ∃ m₁ m₂ skip, ChunkAt code (some ⟨m₂ + 1, m₁⟩) pc body m₁ ∧ OpsAt code m₁ cond m₂ ∧
      code[m₂]? = some (.jumpIfTrue skip) ∧ Leads code m₂ skip pc ∧ pc' = m₂ + 1 := by
  unfold Chunk.testLast at h
  dsimp only at h
  have h := h.of_closeLoop short start (by simp [Chunk.ofOps])
  obtain ⟨m₂, rest, end_⟩ := ChunkAt.append.1 h
  obtain ⟨jump, rest'⟩ := ChunkAt.op_iff.1 end_
  obtain rfl := Placed.nil_iff.1 rest'
  obtain ⟨m₁, bodyAt, condAt⟩ := ChunkAt.append.1 rest
  have bodyEnd := bodyAt.length
  have condEnd := condAt.ofOps.length
  have lands := leads_distance pc (body.length + cond.length) 0 short
    (by have := lt_size_of_op jump; omega) start
  rw [show pc + (body.length + cond.length) = m₂ by omega] at lands
  rw [← bodyEnd] at bodyAt
  exact ⟨m₁, m₂, _, bodyAt, condAt.ofOps, jump, lands, rfl⟩

/-- No jump of the chunk is open. -/
def Chunk.Closed (c : Chunk) : Prop := ∀ x ∈ c, ∃ o, x = .op o

theorem Chunk.closed_closeFrom (site again stop : Nat) (c : Chunk) :
    Closed (closeFrom site again stop c) := by
  induction c generalizing site with
  | nil => exact nofun
  | cons x rest ih =>
      cases x <;> exact List.forall_mem_cons.2 ⟨⟨_, rfl⟩, ih _⟩

theorem Chunk.Closed.append {a b : Chunk} (ha : a.Closed) (hb : b.Closed) :
    Closed (a ++ b) :=
  fun x hx => (List.mem_append.1 hx).elim (ha x) (hb x)

theorem Chunk.closed_ofOps (ops : List Op) : Closed (ofOps ops) := by
  intro x hx
  obtain ⟨o, -, rfl⟩ := List.mem_map.1 hx
  exact ⟨o, rfl⟩

theorem Chunk.Closed.cons {o : Op} {rest : Chunk} (h : rest.Closed) : Closed (.op o :: rest) :=
  List.forall_mem_cons.2 ⟨⟨o, rfl⟩, h⟩

/-- A closed chunk stands where its instructions stand. -/
theorem Chunk.Closed.chunkAt {c : Chunk} (closed : c.Closed) (h : OpsAt code pc c.ops pc') :
    ChunkAt code loop pc c pc' := by
  induction c generalizing pc with
  | nil => cases h; exact .nil
  | cons x rest ih =>
      obtain ⟨⟨o, rfl⟩, others⟩ := List.forall_mem_cons.1 closed
      cases h with
      | cons head tail => exact .cons (.op head) (ih others tail)

end PixelKernel.Language
