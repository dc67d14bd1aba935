import PixelKernel.Proofs.Syntax.Parsing

/-! # Names

A name in a text is a run of letters, digits and underscores, so a text that is put together from
names and other characters can be taken apart again.
-/

namespace PixelKernel.Language

/-- Made of the characters that words are made of. -/
def IsName (name : String) : Prop := ∀ c ∈ name.toList, isWordChar c = true

/-- Words among the tokens are names. -/
def Token.Named (t : Token) : Prop := ∀ name, t.IsWord name → IsName name

theorem isWordChar_of_isWordStart {c : Char} (h : isWordStart c = true) : isWordChar c = true := by
  simp only [isWordStart, isWordChar, Char.isAlphanum, Bool.or_eq_true] at h ⊢
  exact h.imp_left .inl

theorem Numeral.kind_ne_word {n : Numeral} {name : String} : n.kind ≠ .ok (.word name) := by
  unfold Numeral.kind
  split
  · exact fun h => by cases h
  · dsimp only
    split <;> exact fun h => by cases h

theorem TokenAt.isName {c : Char} {cs : List Char} {n : Nat} {name : String}
    (h : TokenAt c cs (.word name) n) : IsName name := by
  generalize kind : Token.Kind.word name = k at h
  cases h with
  | number starts read =>
      subst kind
      exact absurd (numberToken_eq_ok read).2.2 Numeral.kind_ne_word
  | word number starts =>
      unfold Token.Kind.ofWord at kind
      split at kind
      · cases kind
      · cases kind
        intro d mem
        rw [String.toList_ofList, List.mem_cons] at mem
        rcases mem with rfl | mem
        · exact isWordChar_of_isWordStart starts
        · exact List.all_eq_true.1 List.all_takeWhile d mem
  | pair | single => cases kind

theorem named_tokensFrom {pos : Nat} {cs : List Char} {ts : List Token}
    (h : tokensFrom pos cs = .ok ts) : ∀ t ∈ ts, t.Named := by
  fun_induction tokensFrom pos cs generalizing ts with
  | case1 pos =>
      cases h
      refine List.forall_mem_singleton.2 fun name word => ?_
      cases word
  | case2 | case3 => cases h
  | case4 pos c cs e he more hts hk ih =>
      cases h
      exact ih hts
  | case5 pos c cs e he more hts kind hk ih =>
      cases h
      refine List.forall_mem_cons.2 ⟨?_, ih hts⟩
      rintro name rfl
      cases readElement_iff.1 he with
      | skipped => cases hk
      | token solid token found =>
          cases hk
          exact found.isName

theorem FunctionDef.Spelled.isName {f : FunctionDef} {ts : List Token} (h : f.Spelled ts)
    (named : ∀ t ∈ ts, t.Named) : IsName f.name := by
  cases h with
  | mk tag_ type word =>
      exact named _ (List.mem_append_right _ (.tail _ (.head _))) _ word

theorem IsModule.isName {module : List FunctionDef} {ts : List Token} (h : IsModule module ts)
    (named : ∀ t ∈ ts, t.Named) : ∀ f ∈ module, IsName f.name := by
  induction h with
  | nil => exact List.forall_mem_nil _
  | cons first later ih =>
      rw [List.forall_mem_append] at named
      exact List.forall_mem_cons.2 ⟨first.isName named.1, ih named.2⟩

/-- Functions that are read from a text have names. -/
theorem isName_of_parseModule {source : String} {module : List FunctionDef}
    (h : parseModule source = .ok module) : ∀ f ∈ module, IsName f.name := by
  unfold parseModule at h
  cases lexed : tokens source with
  | error c => rw [lexed] at h; cases h
  | ok ts =>
      rw [lexed] at h
      obtain ⟨body, text⟩ := stopped_tokens lexed
      have spelled : IsModule module body := by
        change (Parser.functions ts ts >>= fun r => pure r.1) = _ at h
        cases ran : Parser.functions ts ts with
        | error c => rw [ran] at h; cases h
        | ok r => rw [ran] at h; cases h; exact Parser.isModule_of_functions text ran
      obtain ⟨-, t, -, rfl⟩ := text
      exact spelled.isName fun t mem => named_tokensFrom lexed t (List.mem_append_left _ mem)

end PixelKernel.Language
