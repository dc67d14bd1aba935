import PixelKernel.Proofs.Syntax.Parsing
import PixelKernel.Proofs.Syntax.Spelling

/-! # What stands between tokens

A text is divided by its tokens into spellings and the gaps in front of them. A gap is a run of
blanks and comments. The division is told by the text alone, and other gaps that start with a blank
leave the kinds of all tokens as they are.
-/

namespace PixelKernel.Language

/-! ## Gaps -/

/-- Blanks and complete comments. A line comment takes its line end with it; at the end of a text
    it needs none. -/
inductive Spacing (ends : Bool) : List Char → Prop
  | nil : Spacing ends []
  | blank {c : Char} {gap : List Char} (blank : isBlank c = true) (more : Spacing ends gap) :
      Spacing ends (c :: gap)
  | line {body gap : List Char} (one : '\n' ∉ body) (more : Spacing ends gap) :
      Spacing ends ('/' :: '/' :: (body ++ '\n' :: gap))
  | block {body gap : List Char} (first : ¬['*', '/'] <:+: body) (more : Spacing ends gap) :
      Spacing ends ('/' :: '*' :: (body ++ '*' :: '/' :: gap))
  | lastLine {body : List Char} (last : ends = true) (one : '\n' ∉ body) :
      Spacing ends ('/' :: '/' :: body)

/-- A run of blanks and complete comments that starts with a blank. -/
def Separator (gap : List Char) : Prop :=
  ∃ c more, gap = c :: more ∧ isBlank c = true ∧ Spacing false more

variable {c : Char} {cs w gap rest : List Char} {k : Token.Kind} {n pos : Nat} {ends : Bool}

theorem Separator.spacing (h : Separator gap) : Spacing false gap := by
  obtain ⟨c, more, rfl, blank, spacing⟩ := h
  exact .blank blank spacing

theorem Separator.clear (h : Separator gap) : Clear (gap ++ rest) := by
  obtain ⟨c, more, rfl, blank, -⟩ := h
  intro d head
  cases head
  exact blank

theorem Spacing.of_newline (h : Spacing ends ('\n' :: gap)) : Spacing ends gap := by
  cases h with
  | blank _ more => exact more

/-! ## Division of a text -/

/-- A token as it stands in a text, behind a gap. -/
structure Piece where
  gap : List Char
  spelling : List Char
  kind : Token.Kind

/-- The text of some pieces. -/
def spell (pieces : List Piece) : List Char := pieces.flatMap fun p => p.gap ++ p.spelling

/-- The tokens of some pieces whose text starts at byte `pos`. -/
def placed (pos : Nat) : List Piece → List Token
  | [] => []
  | p :: rest =>
    let start := pos + byteCount p.gap
    let stop := start + byteCount p.spelling
    ⟨p.kind, start, stop⟩ :: placed stop rest

/-- The same token behind another gap. -/
def Piece.behind (p : Piece) (gap : List Char) : Piece := { p with gap }

/-- Pieces that a text can be divided into. -/
inductive WellSpaced : List Piece → Prop
  | stop {gap : List Char} (spacing : Spacing true gap) : WellSpaced [⟨gap, [], .stop⟩]
  | token {gap w : List Char} {k : Token.Kind} {rest : List Piece} (spacing : Spacing false gap)
      (spells : Spells k w) (word : k ≠ .stop) (more : WellSpaced rest) :
      WellSpaced (⟨gap, w, k⟩ :: rest)

variable {p : Piece} {pieces : List Piece} {ts : List Token}

theorem spell_cons : spell (p :: pieces) = p.gap ++ (p.spelling ++ spell pieces) := by
  simp only [spell, List.flatMap_cons, List.append_assoc]

theorem tokensFrom_cons {e : Element} (h : readElement c cs = .ok e) :
    tokensFrom pos (c :: cs) = (tokensFrom (pos + e.bytes) e.rest).map fun ts =>
      match e.kind with
      | none => ts
      | some k => ⟨k, pos, pos + e.bytes⟩ :: ts := by
  rw [tokensFrom]
  split
  next read => rw [h] at read; cases read
  next e' read =>
      cases h.symm.trans read
      cases tokensFrom (pos + e.bytes) e.rest with
      | error => rfl
      | ok ts => cases e.kind <;> rfl

theorem tokensFrom_skip (h : Skipped rest w) :
    tokensFrom pos (w ++ rest) = tokensFrom (pos + byteCount w) rest := by
  cases w with
  | nil => cases h
  | cons c w =>
      rw [List.cons_append, tokensFrom_cons h.readElement]
      cases tokensFrom (pos + byteCount (c :: w)) rest <;> rfl

theorem tokensFrom_token (h : Spells k w) (clear : Clear rest) : tokensFrom pos (w ++ rest) =
    (tokensFrom (pos + byteCount w) rest).map (⟨k, pos, pos + byteCount w⟩ :: ·) := by
  cases w with
  | nil => cases h
  | cons c w => rw [List.cons_append, tokensFrom_cons (h rest clear)]

/-- Skipping the front of a gap leaves the rest of it. -/
theorem tokensFrom_skip_append (front : Skipped (gap ++ rest) w) (more : ∀ pos,
    tokensFrom pos (gap ++ rest) = tokensFrom (pos + byteCount gap) rest) :
    tokensFrom pos ((w ++ gap) ++ rest) = tokensFrom (pos + byteCount (w ++ gap)) rest := by
  rw [List.append_assoc, tokensFrom_skip front, more, byteCount_append, Nat.add_assoc]

/-- The lexer passes over spacing. -/
theorem tokensFrom_spacing (h : Spacing false gap) (pos : Nat) :
    tokensFrom pos (gap ++ rest) = tokensFrom (pos + byteCount gap) rest := by
  induction h generalizing pos with
  | nil => rfl
  | blank blank more ih => exact tokensFrom_skip_append (.blank blank) ih
  | @line body gap one more ih =>
      have ended (pos : Nat) : tokensFrom pos ('\n' :: gap ++ rest) =
          tokensFrom (pos + byteCount ('\n' :: gap)) rest :=
        tokensFrom_skip_append (.blank rfl) ih
      exact tokensFrom_skip_append (w := '/' :: '/' :: body) (.line one (by rintro c ⟨⟩; rfl)) ended
  | @block body gap first more ih =>
      have text : '/' :: '*' :: (body ++ '*' :: '/' :: gap) =
          ('/' :: '*' :: (body ++ ['*', '/'])) ++ gap := by
        rw [List.cons_append, List.cons_append, List.append_assoc]
        rfl
      rw [text]
      exact tokensFrom_skip_append (.block first) ih
  | lastLine last => cases last

/-! ## Other gaps -/

theorem clear_spell {gaps : List (List Char)} (separate : ∀ gap ∈ gaps, Separator gap) :
    Clear (spell (pieces.zipWith Piece.behind gaps)) := by
  cases pieces with
  | nil => exact clear_nil
  | cons p pieces =>
      cases gaps with
      | nil => exact clear_nil
      | cons gap gaps =>
          rw [List.zipWith_cons_cons, spell_cons]
          exact (separate gap (List.mem_cons_self ..)).clear

theorem tokensFrom_nil : tokensFrom pos [] = .ok [⟨.stop, pos, pos⟩] := by rw [tokensFrom]

/-- Separators give the tokens room, whatever gaps they replace. -/
theorem WellSpaced.tokensFrom_spell (h : WellSpaced pieces) {gaps : List (List Char)}
    (one : gaps.length = pieces.length) (separate : ∀ gap ∈ gaps, Separator gap) (pos : Nat) :
    tokensFrom pos (spell (pieces.zipWith Piece.behind gaps)) =
      .ok (placed pos (pieces.zipWith Piece.behind gaps)) := by
  induction h generalizing gaps pos with
  | stop spacing =>
      obtain ⟨gap, rfl⟩ := List.length_eq_one_iff.1 one
      rw [List.zipWith_cons_cons, spell_cons, Piece.behind,
        tokensFrom_spacing (separate gap (List.mem_cons_self ..)).spacing]
      exact tokensFrom_nil
  | @token gap w k rest spacing spells word more ih =>
      cases gaps with
      | nil => cases one
      | cons gap' gaps =>
          rw [List.forall_mem_cons] at separate
          obtain ⟨first, others⟩ := separate
          rw [List.zipWith_cons_cons, spell_cons, Piece.behind, tokensFrom_spacing first.spacing,
            tokensFrom_token spells (clear_spell others), ih (Nat.succ.inj one) others]
          rfl

/-- A spelling alone is read as its token. -/
theorem WellSpaced.tokens_alone (h : WellSpaced pieces) (inside : p ∈ pieces) :
    ∃ more, tokens (String.ofList p.spelling) = .ok (⟨p.kind, 0, byteCount p.spelling⟩ :: more) ∧
      ∀ t ∈ more, t.kind = .stop := by
  unfold tokens
  rw [String.toList_ofList]
  induction h with
  | stop spacing =>
      rw [List.mem_singleton] at inside
      subst inside
      exact ⟨[], tokensFrom_nil, List.forall_mem_nil _⟩
  | @token gap w k rest spacing spells word more ih =>
      cases inside with
      | tail _ inside => exact ih inside
      | head =>
          have read : tokensFrom 0 (w ++ []) =
              (tokensFrom (0 + byteCount w) []).map (⟨k, 0, 0 + byteCount w⟩ :: ·) :=
            tokensFrom_token spells clear_nil
          rw [List.append_nil, tokensFrom_nil, Nat.zero_add] at read
          exact ⟨_, read, by simp⟩

/-! ## The division of a text -/

/-- Spacing goes on behind what is skipped. A line comment ends with its line, unless nothing
    follows it. -/
theorem Spacing.skip (h : Spacing ends gap) (front : Skipped (gap ++ rest) w)
    (next : ends = true ∨ ∃ c ∈ rest.head?, c ≠ '\n') : Spacing ends (w ++ gap) := by
  cases front with
  | blank blank => exact .blank blank h
  | block first =>
      rw [List.cons_append, List.cons_append, List.append_assoc]
      exact .block first h
  | line one ended =>
      cases gap with
      | cons c gap =>
          cases ended c rfl
          exact .line one h.of_newline
      | nil =>
          rw [List.append_nil]
          obtain last | ⟨c, head, other⟩ := next
          · exact .lastLine last one
          · exact absurd (ended c head) other

/-- What is skipped in front of some pieces widens the first gap. -/
theorem WellSpaced.skip (h : WellSpaced pieces) (front : Skipped (spell pieces) w) :
    ∃ p rest, pieces = p :: rest ∧ WellSpaced (p.behind (w ++ p.gap) :: rest) := by
  cases h with
  | stop spacing =>
      rw [spell_cons] at front
      exact ⟨_, [], rfl, .stop (spacing.skip front (.inl rfl))⟩
  | @token gap v k rest spacing spells word more =>
      rw [spell_cons] at front
      refine ⟨_, rest, rfl, .token (spacing.skip front (.inr ?_)) spells word more⟩
      obtain ⟨c, u, rfl, solid⟩ := spells.head
      refine ⟨c, rfl, ?_⟩
      rintro rfl
      cases solid

/-- Every text that lexes is divided into pieces, and its tokens are where the pieces are. -/
theorem exists_wellSpaced (h : tokensFrom pos cs = .ok ts) :
    ∃ pieces, WellSpaced pieces ∧ cs = spell pieces ∧ ts = placed pos pieces := by
  fun_induction tokensFrom pos cs generalizing ts with
  | case1 pos =>
      cases h
      exact ⟨[⟨[], [], .stop⟩], .stop .nil, rfl, rfl⟩
  | case2 | case3 => cases h
  | case4 pos c cs e read more found skip ih =>
      cases h
      obtain ⟨pieces, spaced, text, rfl⟩ := ih found
      cases readElement_iff.1 read with
      | token => cases skip
      | skipped front split bytes =>
          subst text split bytes
          obtain ⟨p, rest, rfl, wider⟩ := spaced.skip front
          refine ⟨_, wider, ?_, ?_⟩
          · rw [spell_cons, spell_cons]
            simp only [Piece.behind, List.cons_append, List.append_assoc]
          · simp only [placed, Piece.behind, byteCount_append, Nat.add_assoc]
  | case5 pos c cs e read more found kind token ih =>
      cases h
      obtain ⟨pieces, spaced, text, rfl⟩ := ih found
      cases readElement_iff.1 read with
      | skipped => cases token
      | token solid noComment here =>
          cases token
          obtain ⟨w, split, bytes, spells⟩ := here.exists_spells solid noComment
          refine ⟨⟨[], c :: w, kind⟩ :: pieces, .token .nil spells here.ne_stop spaced, ?_, ?_⟩
          · rw [spell_cons, ← text]
            exact congrArg (List.cons c) split
          · rw [placed, ← bytes]
            rfl

/-! ## Spans -/

variable {t : Token}

theorem le_of_mem_placed (h : t ∈ placed pos pieces) : pos ≤ t.start ∧ t.start ≤ t.stop := by
  induction pieces generalizing pos with
  | nil => cases h
  | cons p pieces ih =>
      rw [placed, List.mem_cons] at h
      cases h with
      | inl h =>
          subst h
          exact ⟨Nat.le_add_right .., Nat.le_add_right ..⟩
      | inr h =>
          obtain ⟨behind, forward⟩ := ih h
          exact ⟨Nat.le_trans (Nat.le_add_right ..) (Nat.le_trans (Nat.le_add_right ..) behind),
            forward⟩

/-- Each token ends before the next one starts. -/
theorem pairwise_placed : (placed pos pieces).Pairwise fun t u => t.stop ≤ u.start := by
  induction pieces generalizing pos with
  | nil => exact .nil
  | cons p pieces ih =>
      rw [placed]
      exact .cons (fun u inside => (le_of_mem_placed inside).1) ih

/-- The span of a token cuts the text between characters. -/
theorem cut_of_mem_placed (h : t ∈ placed pos pieces) : ∃ before spelling after,
    spell pieces = before ++ (spelling ++ after) ∧ t.start = pos + byteCount before ∧
      t.stop = t.start + byteCount spelling := by
  induction pieces generalizing pos with
  | nil => cases h
  | cons p pieces ih =>
      rw [placed, List.mem_cons] at h
      rw [spell_cons]
      cases h with
      | inl h =>
          subst h
          exact ⟨p.gap, p.spelling, spell pieces, rfl, rfl, rfl⟩
      | inr h =>
          obtain ⟨before, spelling, after, text, start, stop⟩ := ih h
          refine ⟨p.gap ++ (p.spelling ++ before), spelling, after, ?_, ?_, stop⟩
          · rw [text]
            simp only [List.append_assoc]
          · rw [start, byteCount_append, byteCount_append]
            omega

theorem utf8ByteSize_ofList : (String.ofList cs).utf8ByteSize = byteCount cs := by
  induction cs with
  | nil => rfl
  | cons c cs ih =>
      rw [String.ofList_cons, String.utf8ByteSize_append, String.utf8ByteSize_singleton, ih,
        byteCount_cons]

theorem isValid_of_append {source : String} {front back : List Char}
    (text : source.toList = front ++ back) : (⟨byteCount front⟩ : String.Pos.Raw).IsValid source := by
  rw [String.Pos.Raw.isValid_iff_exists_append]
  refine ⟨String.ofList front, String.ofList back, ?_, ?_⟩
  · rw [← String.ofList_append, ← text, String.ofList_toList]
  · rw [← utf8ByteSize_ofList]
    rfl

theorem Spells.byteCount_pos (h : Spells k w) : 0 < byteCount w := by
  obtain ⟨c, v, rfl, -⟩ := h.head
  rw [byteCount_cons]
  exact Nat.add_pos_left c.utf8Size_pos _

/-- The stop token is the last one, at the end of the text. -/
theorem WellSpaced.stopped (h : WellSpaced pieces) (pos : Nat) :
    ∃ body last, placed pos pieces = body ++ [⟨.stop, last, last⟩] ∧
      last = pos + byteCount (spell pieces) ∧ ∀ t ∈ body, t.kind ≠ .stop ∧ t.start < t.stop := by
  induction h generalizing pos with
  | @stop gap spacing =>
      refine ⟨[], pos + byteCount gap, rfl, ?_, List.forall_mem_nil _⟩
      rw [spell_cons]
      exact congrArg (pos + byteCount ·) (List.append_nil gap).symm
  | @token gap w k rest spacing spells word more ih =>
      obtain ⟨body, last, tokens, rfl, proper⟩ := ih (pos + byteCount gap + byteCount w)
      refine ⟨_ :: body, _, congrArg (List.cons _) tokens, ?_, ?_⟩
      · rw [spell_cons, byteCount_append, byteCount_append, Nat.add_assoc, Nat.add_assoc]
      · rw [List.forall_mem_cons]
        exact ⟨⟨word, Nat.lt_add_of_pos_right spells.byteCount_pos⟩, proper⟩

theorem WellSpaced.spacing (h : WellSpaced pieces) (inside : p ∈ pieces) :
    Spacing (p.kind = .stop) p.gap := by
  induction h with
  | stop spacing =>
      cases List.mem_singleton.1 inside
      exact spacing
  | token spacing spells word more ih =>
      cases inside with
      | head => rwa [decide_eq_false word]
      | tail _ inside => exact ih inside

theorem map_kind_placed : (placed pos pieces).map (·.kind) = pieces.map (·.kind) := by
  induction pieces generalizing pos with
  | nil => rfl
  | cons p pieces ih => rw [placed, List.map_cons, List.map_cons, ih]

theorem map_kind_behind {gaps : List (List Char)} (one : gaps.length = pieces.length) :
    (pieces.zipWith Piece.behind gaps).map (·.kind) = pieces.map (·.kind) := by
  induction pieces generalizing gaps with
  | nil => rfl
  | cons p pieces ih =>
      cases gaps with
      | nil => cases one
      | cons gap gaps => exact congrArg (List.cons p.kind) (ih (Nat.succ.inj one))

/-- How the tokens `ts` divide a source text into `pieces`. -/
structure Division (source : String) (ts : List Token) (pieces : List Piece) : Prop where
  text : source.toList = spell pieces
  tokens : ts = placed 0 pieces
  ordered : ts.Pairwise fun t u => t.stop ≤ u.start
  boundaries : ∀ t ∈ ts, (⟨t.start⟩ : String.Pos.Raw).IsValid source ∧
    (⟨t.stop⟩ : String.Pos.Raw).IsValid source
  /-- The stop token is the only one without characters, and the last one. -/
  stopped : ∃ body, ts = body ++ [⟨.stop, source.utf8ByteSize, source.utf8ByteSize⟩] ∧
    ∀ t ∈ body, t.kind ≠ .stop ∧ t.start < t.stop
  /-- In the last gap, which the stop token follows, a line comment may end with the text. -/
  spacing : ∀ p ∈ pieces, Spacing (p.kind = .stop) p.gap
  /-- Each spelling alone is the text of its token. -/
  alone : ∀ p ∈ pieces, ∃ more,
    Language.tokens (String.ofList p.spelling) = .ok (⟨p.kind, 0, byteCount p.spelling⟩ :: more) ∧
      ∀ t ∈ more, t.kind = .stop
  /-- Separators in place of the gaps leave the tokens of the same kinds. -/
  respaced : ∀ gaps, gaps.length = pieces.length → (∀ gap ∈ gaps, Separator gap) → ∃ us,
    Language.tokens (String.ofList (spell (pieces.zipWith Piece.behind gaps))) = .ok us ∧
      us.map (·.kind) = ts.map (·.kind)

/-- The tokens of a text divide it. -/
theorem exists_division {source : String} (h : Language.tokens source = .ok ts) :
    ∃ pieces, Division source ts pieces := by
  obtain ⟨pieces, spaced, text, rfl⟩ := exists_wellSpaced h
  have size : source.utf8ByteSize = byteCount (spell pieces) := by
    rw [← text, ← utf8ByteSize_ofList, String.ofList_toList]
  refine ⟨pieces, text, rfl, pairwise_placed, ?_, ?_, fun p => spaced.spacing,
    fun p => spaced.tokens_alone, ?_⟩
  · intro t inside
    obtain ⟨before, spelling, after, cut, start, stop⟩ := cut_of_mem_placed inside
    have split := text.trans cut
    rw [stop, start, Nat.zero_add, ← byteCount_append]
    exact ⟨isValid_of_append split, isValid_of_append (split.trans (List.append_assoc ..).symm)⟩
  · obtain ⟨body, last, ended, rfl, proper⟩ := spaced.stopped 0
    rw [Nat.zero_add, ← size] at ended
    exact ⟨body, ended, proper⟩
  · intro gaps one separate
    have read := spaced.tokensFrom_spell one separate 0
    refine ⟨placed 0 (pieces.zipWith Piece.behind gaps), ?_, ?_⟩
    · rw [Language.tokens, String.toList_ofList, read]
    · rw [map_kind_placed, map_kind_placed, map_kind_behind one]

end PixelKernel.Language
