import PixelKernel.Proofs.Syntax.Cursor
import PixelKernel.Proofs.Syntax.Lookahead

/-! # Walks beside parsers

A walk retraces a parser when it comes to the same result and leaves the same tokens, or to the same
complaint. On its way it stays in front of the next stop token, so there is always a token to look
at; and it never has left more levels than it has entered.
-/

namespace PixelKernel.Language

open PixelKernel.Language.Parser (maxNesting kindOf posOf secondOf)

/-! ## Cursors -/

namespace Cursor

variable {s s₁ s₂ : Cursor}

/-- The tokens from the next one on. -/
def ahead (s : Cursor) : List Token := s.tokens.drop s.index

/-- Number of tokens from the next one on. -/
def left (s : Cursor) : Nat := s.tokens.length - s.index

/-- Levels that may still be entered. -/
def room (s : Cursor) : Nat := maxNesting - s.nesting

def next (s : Cursor) : Cursor := { s with index := s.index + 1 }

def deeper (s : Cursor) : Cursor := { s with nesting := s.nesting + 1 }

/-- The cursor is at a token, the last token is a stop token, and one level more can be counted. -/
structure Valid (s : Cursor) : Prop where
  inside : s.index < s.tokens.length
  stopped : ∃ t, s.tokens.getLast? = some t ∧ t.kind = .stop
  countable : s.nesting + 1 < 2 ^ 64

/-- From `s` one comes to `s'` and passes no stop token. No level is left that `s` is in. -/
structure Reaches (s s' : Cursor) : Prop where
  tokens : s'.tokens = s.tokens
  onward : s.index ≤ s'.index
  inside : s'.index < s.tokens.length
  unstopped : ∀ i t, s.index ≤ i → i < s'.index → s.tokens[i]? = some t → t.kind ≠ .stop
  within : s.nesting ≤ s'.nesting

/-- And all levels that have been entered have been left. -/
structure Continues (s s' : Cursor) : Prop extends Reaches s s' where
  level : s'.nesting = s.nesting

/-- And a token has been taken. -/
structure Passes (s s' : Cursor) : Prop extends Continues s s' where
  taken : s.index < s'.index

namespace Valid

theorem left_pos (valid : s.Valid) : 0 < s.left := Nat.sub_pos_of_lt valid.inside

theorem exists_token (valid : s.Valid) :
    ∃ t, s.tokens[s.index]? = some t ∧ s.ahead = t :: s.next.ahead :=
  ⟨_, List.getElem?_eq_getElem valid.inside, List.drop_eq_getElem_cons valid.inside⟩

theorem refl (valid : s.Valid) : s.Continues s where
  tokens := rfl
  onward := Nat.le_refl _
  inside := valid.inside
  unstopped _ _ low high := absurd high (Nat.not_lt.2 low)
  within := Nat.le_refl _
  level := rfl

/-- A cursor that is reached is at a token, too. -/
theorem of_reaches (valid : s.Valid) (reached : s.Reaches s₁)
    (countable : s₁.nesting + 1 < 2 ^ 64) : s₁.Valid where
  inside := by rw [reached.tokens]; exact reached.inside
  stopped := by rw [reached.tokens]; exact valid.stopped
  countable := countable

/-- A token that is not the stop token is not the last one. -/
theorem inside_next (valid : s.Valid) (token : kindOf s.ahead ≠ .stop) :
    s.next.index < s.tokens.length := by
  obtain ⟨last, found, stop⟩ := valid.stopped
  obtain ⟨t, here, split⟩ := valid.exists_token
  have inside := valid.inside
  rcases Nat.lt_or_ge (s.index + 1) s.tokens.length with more | end_
  · exact more
  · have final : s.tokens.length - 1 = s.index := by omega
    rw [List.getLast?_eq_getElem?, final, here] at found
    cases found
    rw [split] at token
    exact absurd stop token

theorem passes_next (valid : s.Valid) (token : kindOf s.ahead ≠ .stop) : s.Passes s.next where
  tokens := rfl
  onward := Nat.le_succ _
  inside := valid.inside_next token
  unstopped i t low high found := by
    obtain ⟨t', here, split⟩ := valid.exists_token
    obtain rfl : i = s.index := Nat.le_antisymm (Nat.lt_succ_iff.1 high) low
    rw [here] at found
    cases found
    rw [split] at token
    exact token
  within := Nat.le_refl _
  level := rfl
  taken := Nat.lt_succ_self _

theorem next (valid : s.Valid) (token : kindOf s.ahead ≠ .stop) : s.next.Valid :=
  valid.of_reaches (valid.passes_next token).toReaches valid.countable

theorem deeper (valid : s.Valid) (free : 0 < s.room) : s.deeper.Valid where
  inside := valid.inside
  stopped := valid.stopped
  countable := by
    unfold room maxNesting at free
    change s.nesting + 1 + 1 < _
    omega

end Valid

theorem Reaches.trans (h : s.Reaches s₁) (h' : s₁.Reaches s₂) : s.Reaches s₂ where
  tokens := h'.tokens.trans h.tokens
  onward := Nat.le_trans h.onward h'.onward
  inside := h.tokens ▸ h'.inside
  unstopped i t low high found := by
    rcases Nat.lt_or_ge i s₁.index with before | behind
    · exact h.unstopped i t low before found
    · exact h'.unstopped i t behind high (h.tokens ▸ found)
  within := Nat.le_trans h.within h'.within

theorem Continues.trans (h : s.Continues s₁) (h' : s₁.Continues s₂) : s.Continues s₂ where
  toReaches := h.toReaches.trans h'.toReaches
  level := h'.level.trans h.level

theorem Continues.passes (h : s.Continues s₁) (h' : s₁.Passes s₂) : s.Passes s₂ where
  toContinues := h.trans h'.toContinues
  taken := Nat.lt_of_le_of_lt h.onward h'.taken

theorem Passes.continues (h : s.Passes s₁) (h' : s₁.Continues s₂) : s.Passes s₂ where
  toContinues := h.toContinues.trans h'
  taken := Nat.lt_of_lt_of_le h.taken h'.onward

theorem Passes.trans (h : s.Passes s₁) (h' : s₁.Passes s₂) : s.Passes s₂ :=
  h.continues h'.toContinues

theorem Continues.room (h : s.Continues s₁) : s₁.room = s.room := by
  unfold Cursor.room
  rw [h.level]

theorem Passes.left_lt (h : s.Passes s₁) : s₁.left < s.left := by
  have inside := h.inside
  have taken := h.taken
  unfold left
  rw [h.tokens]
  omega

end Cursor

/-! ## Retracing -/

namespace Walk

open Cursor

variable {α β : Type} {s : Cursor} {good : α → Cursor → Prop} {goal : β → Cursor → Prop}

/-- From `s` a walk has come to the outcome that a parser has come to on the tokens ahead. -/
inductive Retraced (s : Cursor) (good : α → Cursor → Prop) :
    Except Complaint (α × List Token) → EStateM.Result Halt Cursor α → Prop
  | ok {a : α} {s' : Cursor} (reached : s.Reaches s') (valid : s'.Valid) (holds : good a s') :
      Retraced s good (.ok (a, s'.ahead)) (.ok a s')
  | error {c : Complaint} {s' : Cursor} (reached : s.Reaches s') :
      Retraced s good (.error c) (.error (.complaint c) s')

/-- From `s` the walk does what the parser does on the tokens ahead. -/
def Retraces (s : Cursor) (good : α → Cursor → Prop) (p : Parser α) (w : Walk α) : Prop :=
  Retraced s good (p s.ahead) (w s)

theorem Retraced.since {s₁ : Cursor} {x : Except Complaint (α × List Token)}
    {y : EStateM.Result Halt Cursor α} (h : Retraced s₁ good x y) (reached : s.Reaches s₁) :
    Retraced s good x y := by
  cases h with
  | ok reached₁ valid holds => exact .ok (reached.trans reached₁) valid holds
  | error reached₁ => exact .error (reached.trans reached₁)

namespace Retraces

/-! ### Rules -/

theorem pure {a : α} (valid : s.Valid) (holds : good a s) : Retraces s good (pure a) (pure a) :=
  .ok valid.refl.toReaches valid holds

theorem complain {c : Complaint} {p : Parser α} (valid : s.Valid) (fails : p s.ahead = .error c) :
    Retraces s good p (Walk.complain c) := by
  unfold Retraces
  rw [fails]
  exact .error valid.refl.toReaches

theorem bind {p : Parser α} {w : Walk α} {f : α → Parser β} {g : α → Walk β}
    (first : Retraces s good p w)
    (rest : ∀ a s₁, s₁.Valid → good a s₁ → Retraces s₁ goal (f a) (g a)) :
    Retraces s goal (p >>= f) (w >>= g) := by
  change Retraced s goal (Except.bind (p s.ahead) fun r => f r.1 r.2)
    (EStateM.bind w g s)
  rw [EStateM.bind]
  unfold Retraces at first
  generalize p s.ahead = x at first
  generalize w s = y at first
  cases first with
  | ok reached valid holds => exact (rest _ _ valid holds).since reached
  | error reached => exact .error reached

/-- A part of what is read from `s₀` on, where a token has been taken before. -/
theorem onward {s₀ : Cursor} {p : Parser α} {w : Walk α} {f : α → Parser β} {g : α → Walk β}
    (first : Retraces s (fun _ => s.Passes) p w) (passed : s₀.Passes s)
    (rest : ∀ a s₁, s₁.Valid → s₀.Passes s₁ → Retraces s₁ goal (f a) (g a)) :
    Retraces s goal (p >>= f) (w >>= g) :=
  first.bind fun a s₁ valid₁ passed₁ => rest a s₁ valid₁ (passed.trans passed₁)

theorem mono {good' : α → Cursor → Prop} {p : Parser α} {w : Walk α} (h : Retraces s good p w)
    (weaker : ∀ a s', s.Reaches s' → good a s' → good' a s') : Retraces s good' p w := by
  unfold Retraces at h ⊢
  generalize p s.ahead = x at h
  generalize w s = y at h
  cases h with
  | ok reached valid holds => exact .ok reached valid (weaker _ _ reached holds)
  | error reached => exact .error reached

theorem reached {p : Parser α} {w : Walk α} (h : Retraces s good p w) :
    Retraces s (fun _ => s.Reaches) p w := h.mono fun _ _ reached _ => reached

/-! ### Tokens -/

theorem bind_eq {w : Walk α} {g : α → Walk β} {a : α} {s₁ : Cursor} (first : w s = .ok a s₁) :
    (w >>= g) s = g a s₁ := by
  change EStateM.bind w g s = _
  rw [EStateM.bind, first]

theorem tokenAt_eq {i : Nat} {t : Token} (found : s.tokens[i]? = some t) :
    Walk.tokenAt i s = .ok t s := by
  unfold Walk.tokenAt
  refine (bind_eq rfl).trans ?_
  rw [found]
  rfl

theorem kind_eq (valid : s.Valid) : Walk.kind s = .ok (kindOf s.ahead) s := by
  obtain ⟨t, found, split⟩ := valid.exists_token
  rw [split]
  exact bind_eq (tokenAt_eq found)

theorem offset_eq (valid : s.Valid) : Walk.offset s = .ok (posOf s.ahead) s := by
  obtain ⟨t, found, split⟩ := valid.exists_token
  rw [split]
  exact bind_eq (tokenAt_eq found)

theorem secondKind_eq (valid : s.Valid) : Walk.secondKind s = .ok (secondOf s.ahead) s := by
  obtain ⟨t, found, split⟩ := valid.exists_token
  have inside := valid.inside
  rw [split]
  rcases Nat.lt_or_ge (s.index + 1) s.tokens.length with more | end_
  · have second : s.next.ahead = s.tokens[s.index + 1] :: s.next.next.ahead :=
      List.drop_eq_getElem_cons more
    have place : min (s.index + 1) (s.tokens.length - 1) = s.index + 1 := by omega
    rw [second]
    exact bind_eq (tokenAt_eq (by rw [place]; exact List.getElem?_eq_getElem more))
  · have none_ : s.next.ahead = [] := List.drop_eq_nil_of_le end_
    have place : min (s.index + 1) (s.tokens.length - 1) = s.index := by omega
    rw [none_]
    exact bind_eq (tokenAt_eq (by rw [place]; exact found))

/-- The next token may be looked at. -/
theorem peek {f : Token.Kind → Parser β} {g : Token.Kind → Walk β} (valid : s.Valid)
    (rest : ∀ k, kindOf s.ahead = k → Retraces s goal (f k) (g k)) :
    Retraces s goal (Parser.peek >>= f) (Walk.kind >>= g) := by
  unfold Retraces
  rw [bind_eq (kind_eq valid)]
  exact rest _ rfl

theorem here {f : Nat → Parser β} {g : Nat → Walk β} (valid : s.Valid)
    (rest : ∀ pos, Retraces s goal (f pos) (g pos)) :
    Retraces s goal (Parser.here >>= f) (Walk.offset >>= g) := by
  unfold Retraces
  rw [bind_eq (offset_eq valid)]
  exact rest _

/-- A position that the parser does not ask for. -/
theorem offset {p : Parser β} {g : Nat → Walk β} (valid : s.Valid)
    (rest : ∀ pos, Retraces s goal p (g pos)) : Retraces s goal p (Walk.offset >>= g) := by
  unfold Retraces
  rw [bind_eq (offset_eq valid)]
  exact rest _

theorem peekSecond {f : Token.Kind → Parser β} {g : Token.Kind → Walk β} (valid : s.Valid)
    (rest : ∀ k, Retraces s goal (f k) (g k)) :
    Retraces s goal (Parser.peekSecond >>= f) (Walk.secondKind >>= g) := by
  unfold Retraces
  rw [bind_eq (secondKind_eq valid)]
  exact rest _

theorem remaining {f : List Token → Parser β} {w : Walk β} (rest : Retraces s goal (f s.ahead) w) :
    Retraces s goal (Parser.remaining >>= f) w := rest

/-- What is not a stop token can be taken. -/
theorem advance {k : Token.Kind} (valid : s.Valid) (next : kindOf s.ahead = k) (token : k ≠ .stop) :
    Retraces s (fun _ => s.Passes) Parser.advance Walk.bump := by
  subst next
  have bumped : Walk.bump s = .ok () s.next := by
    refine (bind_eq (kind_eq valid)).trans ?_
    rw [if_pos token]
    rfl
  have taken : Parser.advance s.ahead = .ok ((), s.next.ahead) := by
    rw [Parser.advance, ahead, List.tail_drop]
    rfl
  unfold Retraces
  rw [bumped, taken]
  exact .ok (valid.passes_next token).toReaches (valid.next token) (valid.passes_next token)

theorem symbol {x : Symbol} (valid : s.Valid) (next : kindOf s.ahead = .sym x) :
    Retraces s (fun _ => s.Passes) Parser.advance Walk.bump := advance valid next (by simp)

theorem unexpected {what : String} (valid : s.Valid) :
    Retraces s good (Parser.unexpected what) (Walk.unexpected what) := by
  have complains : Walk.unexpected (α := α) what s =
      .error (.complaint ⟨posOf s.ahead, .expected what (kindOf s.ahead)⟩) s :=
    (bind_eq (offset_eq valid)).trans (bind_eq (kind_eq valid))
  unfold Retraces
  rw [complains]
  exact .error valid.refl.toReaches

/-! ### Words and symbols -/

theorem expect {x : Symbol} {what : String} (valid : s.Valid) :
    Retraces s (fun _ => s.Passes) (Parser.expect x what) (Walk.expect x what) := by
  unfold Parser.expect Walk.expect
  refine peek valid fun k next => ?_
  split
  · next found => exact symbol valid (next.trans found)
  · exact unexpected valid

theorem consume_cases {x : Symbol} (valid : s.Valid) :
    Retraces s (fun taken s' => if taken then s.Passes s' else s' = s) (Parser.accept x)
      (Walk.consume x) := by
  unfold Parser.accept Walk.consume
  refine peek valid fun k next => ?_
  split
  · next found =>
    exact (symbol valid (next.trans found)).bind fun _ s₁ valid₁ passed => pure valid₁ passed
  · exact pure valid rfl

/-- A symbol that may stand here, when nothing else depends on it. -/
theorem consume {x : Symbol} (valid : s.Valid) :
    Retraces s (fun _ => s.Continues) (Parser.accept x) (Walk.consume x) := by
  refine (consume_cases valid).mono fun taken s₁ _ came => ?_
  cases taken with
  | true => exact Passes.toContinues came
  | false =>
      obtain rfl : s₁ = s := came
      exact valid.refl

/-- Where the symbol is not taken, what is read next starts at the same token. -/
theorem consume_or {x : Symbol} {f : Bool → Parser β} {g : Bool → Walk β} (valid : s.Valid)
    (taken : ∀ s₁, s₁.Valid → s.Passes s₁ → Retraces s₁ goal (f true) (g true))
    (other : Retraces s goal (f false) (g false)) :
    Retraces s goal (Parser.accept x >>= f) (Walk.consume x >>= g) := by
  refine (consume_cases valid).bind fun found s₁ valid₁ came => ?_
  cases found with
  | true => exact taken s₁ valid₁ came
  | false =>
      obtain rfl : s₁ = s := came
      exact other

theorem word {what : String} (valid : s.Valid) :
    Retraces s (fun _ => s.Passes) (Parser.word what) (Walk.word what) := by
  unfold Parser.word Walk.word
  refine peek valid fun k next => ?_
  cases k with
  | word name =>
      exact (advance valid next (by simp)).bind fun _ s₁ valid₁ passed => pure valid₁ passed
  | _ => exact unexpected valid

theorem typeName (valid : s.Valid) :
    Retraces s (fun _ => s.Passes) Parser.typeName Walk.typeName := by
  unfold Parser.typeName Walk.typeName
  refine here valid fun pos => (word valid).bind fun name s₁ valid₁ passed => ?_
  cases Ty.ofName? name with
  | some t => exact pure valid₁ passed
  | none => exact complain (p := throw _) valid₁ rfl

theorem atDeclaration_eq (valid : s.Valid) :
    Walk.atDeclaration s = .ok ((kindOf s.ahead).declares (secondOf s.ahead)) s := by
  unfold Walk.atDeclaration
  refine (bind_eq (kind_eq valid)).trans ((bind_eq (secondKind_eq valid)).trans ?_)
  generalize kindOf s.ahead = first
  generalize secondOf s.ahead = second
  cases first with
  | sym x => cases x <;> rfl
  | word name => cases second <;> rfl
  | _ => rfl

theorem atDeclaration {f : Bool → Parser β} {g : Bool → Walk β} (valid : s.Valid)
    (rest : ∀ declares, Retraces s goal (f declares) (g declares)) :
    Retraces s goal (Parser.atDeclaration >>= f) (Walk.atDeclaration >>= g) := by
  change Retraced s goal (Except.bind (Parser.atDeclaration s.ahead) fun r => f r.1 r.2) _
  rw [Parser.atDeclaration_eq, bind_eq (atDeclaration_eq valid)]
  exact rest _

/-! ### Levels -/

theorem reaches_deeper (valid : s.Valid) : s.Reaches s.deeper where
  tokens := rfl
  onward := Nat.le_refl _
  inside := valid.inside
  unstopped _ _ low high := absurd high (Nat.not_lt.2 low)
  within := Nat.le_succ _

theorem nest_eq (valid : s.Valid) {what : String} : Walk.nest what s =
    if maxNesting < s.nesting + 1 then
      .error (.complaint ⟨posOf s.ahead, .tooDeep what maxNesting⟩) s.deeper
    else .ok () s.deeper := by
  obtain ⟨t, found, split⟩ := valid.exists_token
  have offset : Walk.offset s.deeper = .ok t.start s.deeper := bind_eq (tokenAt_eq found)
  change (if 2 ^ 64 ≤ s.nesting + 1 then _ else _ : Walk Unit) s = _
  rw [if_neg (Nat.not_le.2 valid.countable)]
  change (if maxNesting < s.nesting + 1 then _ else _ : Walk Unit) s.deeper = _
  split
  · rw [split]
    exact bind_eq offset
  · rfl

/-- No level may be entered any more. -/
theorem nest_full {what : String} {g : Unit → Walk β} (valid : s.Valid) (full : s.room = 0) :
    Retraces s goal (Parser.outOfRoom what) (Walk.nest what >>= g) := by
  have beyond : maxNesting < s.nesting + 1 := Nat.lt_succ_of_le (Nat.le_of_sub_eq_zero full)
  have stops : Retraces s (fun _ _ => False) (Parser.outOfRoom what) (Walk.nest what) := by
    unfold Retraces
    rw [nest_eq valid, if_pos beyond]
    exact .error (reaches_deeper valid)
  exact stops.bind (f := fun _ => Parser.outOfRoom what) fun _ _ _ no => no.elim

theorem nest_entered {what : String} (valid : s.Valid) (free : 0 < s.room) :
    Walk.nest what s = .ok () s.deeper := by
  have below : ¬maxNesting < s.nesting + 1 := Nat.not_lt.2 (Nat.sub_pos_iff_lt.1 free)
  rw [nest_eq valid, if_neg below]

theorem nest {what : String} {p : Parser β} {g : Unit → Walk β} (valid : s.Valid)
    (free : 0 < s.room) (rest : s.deeper.Valid → Retraces s.deeper goal p (g ())) :
    Retraces s goal p (Walk.nest what >>= g) := by
  have inner : Retraced s.deeper goal (p s.ahead) (g () s.deeper) := rest (valid.deeper free)
  unfold Retraces
  rw [bind_eq (nest_entered valid free)]
  exact inner.since (reaches_deeper valid)

theorem nested_full {what : String} {w : Walk α} (valid : s.Valid) (full : s.room = 0) :
    Retraces s good (Parser.outOfRoom what) (Walk.nested what w) := nest_full valid full

/-- The level that has been entered last is left. -/
theorem leave_eq {s' : Cursor} (reached : s.deeper.Reaches s') :
    Walk.leave s' = .ok () { s' with nesting := s'.nesting - 1 } := by
  change (if s'.nesting = 0 then _ else _ : Walk Unit) s' = _
  rw [if_neg (Nat.ne_of_gt (Nat.lt_of_lt_of_le (Nat.succ_pos _) reached.within))]
  rfl

theorem reaches_left {s' : Cursor} (reached : s.deeper.Reaches s') :
    s.Reaches { s' with nesting := s'.nesting - 1 } :=
  { reached with within := Nat.le_sub_of_add_le reached.within }

theorem nested {what : String} {p : Parser α} {w : Walk α} (valid : s.Valid) (free : 0 < s.room)
    (inner : s.deeper.Valid → Retraces s.deeper (fun _ => s.deeper.Passes) p w) :
    Retraces s (fun _ => s.Passes) p (Walk.nested what w) := by
  have inner : Retraced s.deeper _ (p s.ahead) (w s.deeper) := inner (valid.deeper free)
  unfold Retraces Walk.nested
  rw [bind_eq (nest_entered valid free)]
  unfold Walk.leaving
  generalize p s.ahead = x at inner
  generalize w s.deeper = y at inner
  cases inner with
  | @ok a s' reached _ passed =>
      dsimp only
      rw [bind_eq (leave_eq reached)]
      have level : s'.nesting - 1 = s.nesting := by rw [passed.level]; rfl
      have passes : s.Passes { s' with nesting := s'.nesting - 1 } :=
        { reaches_left reached with level := level, taken := passed.taken }
      exact .ok passes.toReaches
        (valid.of_reaches passes.toReaches (by rw [level]; exact valid.countable)) passes
  | @error c s' reached =>
      dsimp only
      rw [bind_eq (leave_eq reached)]
      exact .error (reaches_left reached)

/-- Levels that have been entered in the walk are forgotten after it. -/
theorem restored {p : Parser α} {w : Walk α} (valid : s.Valid) (inner : Retraces s good p w) :
    Retraces s (fun _ => s.Continues) p (do
      let mark ← Walk.levels
      let a ← w
      Walk.restore mark
      return a) := by
  change Retraced s _ (p s.ahead)
    (EStateM.bind w (fun a => Walk.restore s.nesting >>= fun _ => Pure.pure a) s)
  rw [EStateM.bind]
  unfold Retraces at inner
  generalize p s.ahead = x at inner
  generalize w s = y at inner
  cases inner with
  | error reached => exact .error reached
  | @ok a s' reached =>
      have continues : s.Continues { s' with nesting := s.nesting } :=
        { reached with within := Nat.le_refl _, level := rfl }
      exact .ok continues.toReaches (valid.of_reaches continues.toReaches valid.countable) continues

end Retraces
end Walk
end PixelKernel.Language
