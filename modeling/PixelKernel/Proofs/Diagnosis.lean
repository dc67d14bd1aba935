import PixelKernel.Proofs.Code.Complaints

/-! # Diagnostics

A diagnostic of a rejected text is at something that a reader can find: a token, what the lexer
cannot read, the end of the text, or its front if there is no kernel. Its line and its column are
those of its offset, and no other offset has both of them.
-/

namespace PixelKernel.Language

/-! ## Lines and columns -/

/-- Lines up to a line end, or none. -/
def WholeLines (cs : List Char) : Prop := cs = [] ∨ ∃ before, cs = before ++ ['\n']

/-- The byte at `offset` of a text starts a character, or the text ends there. In front of it are
    whole lines, one less than `line`, and `column - 1` characters of another one. -/
def PlacedAt (text : List Char) (offset line column : Nat) : Prop := ∃ lines current after,
  text = lines ++ (current ++ after) ∧ WholeLines lines ∧ '\n' ∉ current ∧
    offset = byteCount lines + byteCount current ∧ line = lines.count '\n' + 1 ∧
    column = current.length + 1

section

variable {text lines current before after cs : List Char} {n line column : Nat}

/-- Every part of a text is some whole lines and the start of another one. -/
theorem exists_lines (cs : List Char) :
    ∃ lines current, cs = lines ++ current ∧ WholeLines lines ∧ '\n' ∉ current := by
  induction cs with
  | nil => exact ⟨[], [], rfl, .inl rfl, List.not_mem_nil⟩
  | cons c cs ih =>
      obtain ⟨lines, current, rfl, whole, open_⟩ := ih
      obtain rfl | ⟨before, rfl⟩ := whole
      · by_cases ends : c = '\n'
        · exact ⟨[c], current, rfl, .inr ⟨[], by rw [ends]; rfl⟩, open_⟩
        · refine ⟨[], c :: current, rfl, .inl rfl, ?_⟩
          rw [List.mem_cons]
          exact not_or.2 ⟨Ne.symm ends, open_⟩
      · exact ⟨c :: (before ++ ['\n']), current, rfl, .inr ⟨c :: before, rfl⟩, open_⟩

theorem advance_zero : advance 0 line column cs = (line, column) := by
  cases cs <;> simp [advance]

theorem advance_cons {c : Char} : advance (c.utf8Size + n) line column (c :: cs) =
    if c = '\n' then advance n (line + 1) 1 cs else advance n line (column + 1) cs := by
  have some_ : c.utf8Size + n ≠ 0 := Nat.ne_of_gt (Nat.add_pos_left c.utf8Size_pos n)
  rw [advance, if_neg some_, Nat.add_sub_cancel_left]

/-- Within a line the column goes on with each character. -/
theorem advance_current (open_ : '\n' ∉ current) :
    advance (byteCount current + n) line column (current ++ after) =
      advance n line (column + current.length) after := by
  induction current generalizing column with
  | nil => rw [byteCount, List.map_nil, List.sum_nil, Nat.zero_add]; rfl
  | cons c current ih =>
      rw [List.mem_cons, not_or] at open_
      rw [byteCount_cons, Nat.add_assoc, List.cons_append, advance_cons,
        if_neg (Ne.symm open_.1), ih open_.2, List.length_cons]
      congr 1
      omega

/-- Behind a line end the column is the first. -/
theorem advance_lines : advance (byteCount (before ++ ['\n']) + n) line column
    (before ++ '\n' :: after) = advance n (line + (before ++ ['\n']).count '\n') 1 after := by
  induction before generalizing line column with
  | nil =>
      have size : byteCount ([] ++ ['\n']) = '\n'.utf8Size := rfl
      rw [size, List.nil_append, advance_cons]
      rfl
  | cons c before ih =>
      rw [List.cons_append, List.cons_append, byteCount_cons, Nat.add_assoc, advance_cons]
      split
      · next ends =>
        subst ends
        rw [ih, List.count_cons_self]
        congr 1
        omega
      · next other => rw [ih, List.count_cons_of_ne other]

theorem placedAt_advance (split : text = before ++ after) :
    PlacedAt text (byteCount before) (advance (byteCount before) 1 1 text).1
      (advance (byteCount before) 1 1 text).2 := by
  obtain ⟨lines, current, rfl, whole, open_⟩ := exists_lines before
  rw [List.append_assoc] at split
  subst split
  refine ⟨lines, current, after, rfl, whole, open_, byteCount_append, ?_⟩
  have behind {line : Nat} :
      advance (byteCount current) line 1 (current ++ after) = (line, 1 + current.length) := by
    have moved : advance (byteCount current + 0) line 1 (current ++ after) =
        advance 0 line (1 + current.length) after := advance_current open_
    rwa [advance_zero] at moved
  rw [byteCount_append]
  obtain rfl | ⟨lines, rfl⟩ := whole
  · rw [byteCount, List.map_nil, List.sum_nil, Nat.zero_add, List.nil_append, behind]
    exact ⟨rfl, Nat.add_comm ..⟩
  · rw [List.append_assoc, List.singleton_append, advance_lines, behind]
    exact ⟨Nat.add_comm .., Nat.add_comm ..⟩

/-- Whole lines of a text are told by their number. -/
theorem WholeLines.unique {lines' rest rest' : List Char} (whole : WholeLines lines)
    (whole' : WholeLines lines') (same : lines ++ rest = lines' ++ rest')
    (count : lines.count '\n' = lines'.count '\n') : lines = lines' := by
  -- What one of them has more ends with a line end.
  have equal {lines more : List Char} (whole : WholeLines (lines ++ more))
      (count : lines.count '\n' = (lines ++ more).count '\n') : more = [] := by
    rw [List.count_append] at count
    have none_ : '\n' ∉ more := List.count_eq_zero.1 (by omega)
    cases more using List.reverseRecOn with
    | nil => rfl
    | append_singleton more c =>
        obtain empty | ⟨before, ends⟩ := whole
        · simp at empty
        · rw [← List.append_assoc] at ends
          have last : c = '\n' := List.singleton_inj.1 (List.append_inj_right' ends rfl)
          simp [last] at none_
  rcases List.append_eq_append_iff.1 same with ⟨more, rfl, -⟩ | ⟨more, rfl, -⟩
  · rw [equal whole' count, List.append_nil]
  · rw [equal whole count.symm, List.append_nil]

/-- Line and column tell the offset. -/
theorem PlacedAt.unique {offset offset' : Nat} (h : PlacedAt text offset line column)
    (h' : PlacedAt text offset' line column) : offset = offset' := by
  obtain ⟨lines, current, after, rfl, whole, -, rfl, rfl, rfl⟩ := h
  obtain ⟨lines', current', after', same, whole', -, rfl, line_, column_⟩ := h'
  obtain rfl := whole.unique whole' same (Nat.succ.inj line_)
  have current_ := List.append_inj_left (List.append_cancel_left same) (Nat.succ.inj column_)
  rw [current_]

theorem PlacedAt.boundary {source : String} (h : PlacedAt source.toList n line column) :
    (⟨n⟩ : String.Pos.Raw).IsValid source := by
  obtain ⟨lines, current, after, split, -, -, rfl, -⟩ := h
  rw [← byteCount_append]
  exact isValid_of_append (split.trans (List.append_assoc ..).symm)

end

/-! ## Complaints -/

/-- What a complaint about a text is at. -/
inductive PointsAt (source : String) : Cause → Nat → Prop
  /-- What the lexer cannot read, behind elements that it can. -/
  | unreadable {before rest : List Char} {n : Nat} {cause : Cause}
      (split : source.toList = before ++ rest) (leads : LexesTo rest source.toList)
      (fault : Unreadable rest n cause) : PointsAt source cause (byteCount before + n)
  /-- The first character of a token. -/
  | token {ts : List Token} {t : Token} {before spelling after : List Char} {cause : Cause}
      (lexed : tokens source = .ok ts) (there : t ∈ ts)
      (split : source.toList = before ++ (spelling ++ after)) (spells : Spells t.kind spelling)
      (start : t.start = byteCount before) : PointsAt source cause t.start
  | finish {ts : List Token} {cause : Cause} (lexed : tokens source = .ok ts) :
      PointsAt source cause source.utf8ByteSize
  | noKernel {module : List FunctionDef} (parsed : parseModule source = .ok module)
      (untagged : ∀ f ∈ module, f.kernel = none) : PointsAt source .noKernel 0

section

variable {source : String} {ts : List Token} {pieces : List Piece} {pos : Nat} {t : Token}

/-- A token starts where its spelling does; the stop token is at the end. -/
theorem WellSpaced.start (h : WellSpaced pieces) (there : t ∈ placed pos pieces) :
    (∃ before spelling after, spell pieces = before ++ (spelling ++ after) ∧
      Spells t.kind spelling ∧ t.start = pos + byteCount before) ∨
    t.start = pos + byteCount (spell pieces) := by
  induction h generalizing pos with
  | @stop gap spacing =>
      obtain rfl := List.mem_singleton.1 there
      refine .inr ?_
      rw [spell_cons]
      exact congrArg (pos + byteCount ·) (List.append_nil gap).symm
  | @token gap w k rest spacing spells word more ih =>
      rw [spell_cons]
      rcases List.mem_cons.1 there with rfl | later
      · exact .inl ⟨gap, w, spell rest, rfl, spells, rfl⟩
      rcases ih later with ⟨before, spelling, after, split, spells', start⟩ | last
      · refine .inl ⟨gap ++ (w ++ before), spelling, after, ?_, spells', ?_⟩
        · simp only [split, List.append_assoc]
        · simp only [start, byteCount_append, Nat.add_assoc]
      · refine .inr ?_
        simp only [last, byteCount_append, Nat.add_assoc]

theorem PointsAt.of_token {cause : Cause} (lexed : tokens source = .ok ts) (there : t ∈ ts) :
    PointsAt source cause t.start := by
  obtain ⟨pieces, spaced, text, rfl⟩ := exists_wellSpaced lexed
  rcases spaced.start there with ⟨before, spelling, after, split, spells, start⟩ | last
  · exact .token lexed there (text.trans split) spells (start.trans (Nat.zero_add _))
  · rw [last, ← text, Nat.zero_add, ← utf8ByteSize_ofList, String.ofList_toList]
    exact .finish lexed

theorem ahead_of_stopped {body : List Token} (h : Stopped body ts) :
    Parser.Ahead (fun pos => ∃ t ∈ ts, t.start = pos) ts := by
  obtain ⟨-, last, stop, split⟩ := h
  have within {front : List Token} {P : Nat → Prop} (here : P last.start)
      (marks : ∀ t ∈ front, P t.start) : Parser.Ahead P (front ++ [last]) := by
    induction front with
    | nil => exact .last stop here
    | cons t front ih =>
        obtain ⟨first, later⟩ := List.forall_mem_cons.1 marks
        exact .cons first (ih later)
  have marks (t : Token) (there : t ∈ body ++ [last]) : ∃ u ∈ ts, u.start = t.start :=
    ⟨t, split ▸ there, rfl⟩
  have ahead := within (P := fun pos => ∃ t ∈ ts, t.start = pos) (marks last List.mem_concat_self)
    fun t there => marks t (List.mem_append_left _ there)
  rwa [← split] at ahead

/-- The parser complains at a token, and so do those who walk over what it reads. -/
theorem parseModule_marks (lexed : tokens source = .ok ts) :
    match parseModule source with
    | .ok module => ∀ f ∈ module, f.Marked fun pos => ∃ t ∈ ts, t.start = pos
    | .error c => ∃ t ∈ ts, t.start = c.pos := by
  obtain ⟨body, stopped⟩ := stopped_tokens lexed
  have heeds := Parser.Marking.functions ts ts (ahead_of_stopped stopped)
  unfold parseModule
  unfold Parser.Heeds at heeds
  simp only [lexed, bind, Except.bind, pure, Except.pure]
  split at heeds
  next read => rw [read]; exact heeds.1
  next failed => rw [failed]; exact heeds

/-- What a text is rejected for is at something in the text. -/
theorem pointsAt_of_error {c : Complaint}
    (rejected : parseModule source >>= lowerModule = .error c) : PointsAt source c.cause c.pos := by
  cases lexed : tokens source with
  | error e =>
      have failed : parseModule source = .error e := by
        unfold parseModule
        rw [lexed]
        rfl
      rw [failed] at rejected
      cases rejected
      obtain ⟨before, rest, n, split, leads, fault, place⟩ := unreadable_of_tokensFrom lexed
      rw [place, Nat.zero_add]
      exact .unreadable split leads fault
  | ok ts =>
      have marks := parseModule_marks lexed
      cases parsed : parseModule source with
      | error e =>
          rw [parsed] at marks rejected
          cases rejected
          obtain ⟨t, there, start⟩ := marks
          exact start ▸ .of_token lexed there
      | ok module =>
          rw [parsed] at marks rejected
          rcases lowerModule_blames marks rejected with ⟨t, there, start⟩ | ⟨rfl, untagged⟩
          · exact start ▸ .of_token lexed there
          · exact .noKernel parsed untagged

theorem PointsAt.boundary {cause : Cause} {offset : Nat} (h : PointsAt source cause offset) :
    ∃ before after, source.toList = before ++ after ∧ offset = byteCount before := by
  cases h with
  | unreadable split leads fault =>
      obtain ⟨front, back, rfl, rfl⟩ := fault.boundary
      exact ⟨_, back, split.trans (List.append_assoc ..).symm, byteCount_append.symm⟩
  | token lexed there split spells start => exact ⟨_, _, split, start⟩
  | finish lexed =>
      refine ⟨source.toList, [], (List.append_nil _).symm, ?_⟩
      rw [← utf8ByteSize_ofList, String.ofList_toList]
  | noKernel => exact ⟨[], _, rfl, rfl⟩

end

/-! ## Diagnostics -/

/-- The diagnostic is at something in the text, and line and column say where. -/
structure Diagnostic.Locates (source : String) (d : Diagnostic) : Prop where
  cause : ∃ cause : Cause, d.text = cause.text ∧ PointsAt source cause d.offset
  boundary : (⟨d.offset⟩ : String.Pos.Raw).IsValid source
  inside : d.offset ≤ source.utf8ByteSize
  place : PlacedAt source.toList d.offset d.line d.column
  only : ∀ offset, PlacedAt source.toList offset d.line d.column → offset = d.offset

/-- A text that is not compiled is rejected with a diagnostic that locates its fault. -/
theorem rejected_locates {source : String} {d : Diagnostic} (rejected : compile source = .error d) :
    d.Locates source := by
  unfold compile at rejected
  split at rejected
  · cases rejected
  next c failed =>
  cases rejected
  have points := pointsAt_of_error failed
  obtain ⟨before, after, split, offset⟩ := points.boundary
  have place : PlacedAt source.toList (c.locate source).offset (c.locate source).line
      (c.locate source).column := by
    have at_ := placedAt_advance split
    rw [← offset] at at_
    exact at_
  exact {
    cause := ⟨c.cause, rfl, points⟩
    boundary := place.boundary
    inside := place.boundary.le_utf8ByteSize
    place := place
    only := fun offset other => other.unique place }

/-- A comment that has a character of two bytes, and a token that begins nothing. -/
def strayQuestion : String := "/*é*/\n ?"

theorem strayQuestion_rejected : compile strayQuestion =
    .error ⟨8, 2, 2, "expected a type name, found Question"⟩ := by
  decide +kernel

/-- The diagnostic is at the eighth byte, in the second line, and at no other place. -/
theorem strayQuestion_located : Diagnostic.Locates strayQuestion
    ⟨8, 2, 2, "expected a type name, found Question"⟩ :=
  rejected_locates strayQuestion_rejected

end PixelKernel.Language
