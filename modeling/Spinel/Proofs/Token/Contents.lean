import Spinel.Proofs.Token.Respacing

/-!
# What a text is cut into

`Lexer.CutsInto text contents` says of which kinds and texts the tokens of a whole text are, and can
be evaluated. It is a matter of the characters alone (`Lexer.cutsInto_iff`), so it can be found out
token by token: `readsAs_nil` and `readsAs_cons` say what there is to it at the end of a text and
before one more token.
-/

namespace Spinel

variable {cs rest : List Char} {contents : List (TokenKind × String)}

/-! ## Characters -/

/-- The characters read as tokens of these kinds and texts, up to their end. -/
def ReadsAs (cs : List Char) (contents : List (TokenKind × String)) : Prop :=
  ∃ ts, Reads cs ts ∧ ts.map Token.content = contents

theorem readsAs_nil : ReadsAs cs [] ↔ cs.drop (Lexeme.blanks cs false) = [] := by
  constructor
  · rintro ⟨ts, hreads, hcontents⟩
    cases hreads with
    | done hend => exact hend
    | token => cases hcontents
  · exact fun hend => ⟨[], .done hend, rfl⟩

theorem readsAs_cons {content : TokenKind × String} :
    ReadsAs cs (content :: contents) ↔ ∃ t rest, Lexeme.firstToken? cs = some (t, rest) ∧
      t.content = content ∧ ReadsAs rest contents := by
  constructor
  · rintro ⟨ts, hreads, hcontents⟩
    cases hreads with
    | done => cases hcontents
    | @token _ rest t ts hfirst hrest =>
      obtain ⟨hcontent, hcontents⟩ := List.cons.inj hcontents
      exact ⟨t, rest, hfirst, hcontent, ts, hrest, hcontents⟩
  · rintro ⟨t, rest, hfirst, rfl, ts, hrest, rfl⟩
    exact ⟨t :: ts, .token hfirst hrest, rfl⟩

/-- What the first token of a text is decides how the reading begins. -/
theorem readsAs_of_firstToken? {t : Token} (h : Lexeme.firstToken? cs = some (t, rest))
    {content : TokenKind × String} :
    ReadsAs cs (content :: contents) ↔ t.content = content ∧ ReadsAs rest contents := by
  rw [readsAs_cons, h]
  constructor
  · rintro ⟨_, _, hsome, hcontent, hrest⟩
    cases hsome
    exact ⟨hcontent, hrest⟩
  · exact fun ⟨hcontent, hrest⟩ => ⟨t, rest, rfl, hcontent, hrest⟩

/-! ## Texts -/

namespace Lexer

/-- The tokens of the text, up to its end, have these kinds and texts, whether the text is available
at once or comes from a reader. -/
def CutsInto (text : String) (contents : List (TokenKind × String)) : Prop :=
  ∀ s ∈ [Stream.ofText text, .ofReader text],
    (tokens s).1.map Token.content = contents ∧ (tokens s).2 = none

instance (text : String) (contents : List (TokenKind × String)) :
    Decidable (CutsInto text contents) :=
  inferInstanceAs (Decidable (∀ s ∈ [Stream.ofText text, .ofReader text],
    (tokens s).1.map Token.content = contents ∧ (tokens s).2 = none))

theorem CutsInto.unique {text : String} {contents' : List (TokenKind × String)}
    (h : CutsInto text contents) (h' : CutsInto text contents') : contents = contents' :=
  (h _ List.mem_cons_self).1.symm.trans (h' _ List.mem_cons_self).1

/-- What is ahead reads as the tokens that the lexer gives up to the end of the text. -/
theorem reads_of_tokensUpTo {n : Nat} {l : Lexer} {ts : List Token} (hp : l.pushed = [])
    (hn : l.stream.rest.length < n) (h : tokensUpTo n l = (ts, none)) :
    ReadsAs l.stream.rest (ts.map Token.content) := by
  induction n generalizing l ts with
  | zero => exact absurd hn (Nat.not_lt_zero _)
  | succ n ih =>
    obtain ⟨hend, rfl⟩ | ⟨first, t, l', us, hfirst, hnext, htail, rfl⟩ := tokensUpTo_cases hp h
    · exact readsAs_nil.2 hend
    · obtain ⟨span, _, hnext', hrest, hpushed⟩ := next_of_firstToken? hp hfirst
      cases hnext'.symm.trans hnext
      have hlt := Lexeme.firstToken?_length_lt hfirst
      refine (readsAs_of_firstToken? hfirst).2 ⟨rfl, ?_⟩
      rw [← hrest]
      exact ih hpushed (by rw [hrest]; omega) htail

theorem cutsInto_iff {text : String} : CutsInto text contents ↔ ReadsAs text.toList contents := by
  constructor
  · intro h
    obtain ⟨hcontents, hnone⟩ := h (.ofText text) List.mem_cons_self
    rw [← hcontents]
    exact reads_of_tokensUpTo (l := ⟨.ofText text, []⟩) rfl (Nat.lt_succ_self _)
      (Prod.ext rfl hnone)
  · rintro ⟨ts, hreads, rfl⟩ s hs
    have hrest : s.rest = text.toList := by
      simp only [List.mem_cons, List.not_mem_nil, or_false] at hs
      rcases hs with rfl | rfl <;> rfl
    obtain ⟨us, hus, hcontents⟩ := tokensUpTo_of_reads (l := ⟨s, []⟩) rfl (Nat.lt_succ_self _)
      (hrest ▸ hreads)
    have htokens : tokens s = (us, none) := hus
    rw [htokens]
    exact ⟨hcontents, rfl⟩

end Lexer

end Spinel
