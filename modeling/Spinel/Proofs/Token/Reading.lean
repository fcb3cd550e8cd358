import Spinel.Token.Lexer

/-!
# The tokens that a text reads as

What the lexer gives depends on the characters ahead alone, but for the places of the tokens.
`Lexeme.firstToken?` is one step of it as a function of those characters, and `Reads cs ts` says
that all of `cs` reads as the tokens `ts`. Tokens in such lists have no place yet; `Token.placed`
gives them one. `Lexer.next_of_firstToken?` and `Lexer.next_of_end` tie the lexer to both.
-/

namespace Spinel

/-! ## Tokens without a place -/

namespace Token

/-- A token that has no place yet. -/
def bare (kind : TokenKind) (text : String) (spaced : Bool) : Token := ⟨kind, text, default, spaced⟩

/-- The token at a place. -/
def placed (t : Token) (span : Span) : Token := { t with span }

/-- The token with blanks before it. -/
def behindBlanks (t : Token) : Token := { t with spaced := true }

@[simp] theorem placed_kind (t : Token) (span : Span) : (t.placed span).kind = t.kind := rfl

@[simp] theorem placed_text (t : Token) (span : Span) : (t.placed span).text = t.text := rfl

@[simp] theorem placed_span (t : Token) (span : Span) : (t.placed span).span = span := rfl

@[simp] theorem placed_spaced (t : Token) (span : Span) : (t.placed span).spaced = t.spaced := rfl

@[simp] theorem placed_placed (t : Token) (p q : Span) : (t.placed p).placed q = t.placed q := rfl

@[simp] theorem placed_self (t : Token) : t.placed t.span = t := rfl

@[simp] theorem placed_isOperator (t : Token) (span : Span) (text : String) :
    (t.placed span).isOperator text = t.isOperator text := rfl

@[simp] theorem placed_isSeparator (t : Token) (span : Span) (text : String) :
    (t.placed span).isSeparator text = t.isSeparator text := rfl

@[simp] theorem placed_isKeyword (t : Token) (span : Span) (text : String) :
    (t.placed span).isKeyword text = t.isKeyword text := rfl

@[simp] theorem placed_isTerminator (t : Token) (span : Span) :
    (t.placed span).isTerminator = t.isTerminator := rfl

end Token

/-! ## Characters behind the cursor -/

namespace Stream

@[simp] theorem demand_rest (n : Nat) (s : Stream) : (s.demand n).rest = s.rest := by
  unfold demand
  split <;> rfl

@[simp] theorem step_rest (s : Stream) : s.step.rest = s.rest.drop 1 := by
  unfold step
  split
  · next h => simp [h]
  · next h => simp [h]

@[simp] theorem advance_rest (n : Nat) (s : Stream) : (advance n s).rest = s.rest.drop n := by
  induction n generalizing s with
  | zero => rfl
  | succ n ih => rw [advance, ih, step_rest, List.drop_drop, Nat.add_comm]

end Stream

/-! ## One token -/

namespace Lexeme

/-- The first token of a text, and the text behind it. There is none at the end of the text or where
it is malformed. -/
def firstToken? (cs : List Char) : Option (Token × List Char) :=
  let gap := blanks cs false
  match cs.drop gap with
  | [] => none
  | c :: rest =>
    match (ofChars c rest).reading with
    | .token kind text =>
      some (.bare kind text (0 < gap), (c :: rest).drop (ofChars c rest).length)
    | .malformed .. => none

theorem firstToken?_eq_some {cs rest : List Char} {t : Token} :
    firstToken? cs = some (t, rest) ↔ ∃ c more kind text,
      cs.drop (blanks cs false) = c :: more ∧ (ofChars c more).reading = .token kind text ∧
      t = .bare kind text (0 < blanks cs false) ∧
      rest = (c :: more).drop (ofChars c more).length := by
  unfold firstToken?
  dsimp only
  constructor
  · intro h
    split at h
    · cases h
    · next c more hd =>
      split at h
      · next kind text hr =>
        simp only [Option.some.injEq, Prod.mk.injEq] at h
        exact ⟨c, more, kind, text, hd, hr, h.1.symm, h.2.symm⟩
      · cases h
  · rintro ⟨c, more, kind, text, hd, hr, rfl, rfl⟩
    simp only [hd, hr]

theorem firstToken?_of_reading {c : Char} {rest : List Char} {kind : TokenKind} {text : String}
    (hgap : blanks (c :: rest) false = 0) (h : (ofChars c rest).reading = .token kind text) :
    firstToken? (c :: rest) =
      some (.bare kind text false, (c :: rest).drop (ofChars c rest).length) :=
  firstToken?_eq_some.2 ⟨c, rest, kind, text, by rw [hgap]; rfl, h, by rw [hgap]; rfl, rfl⟩

/-- A blank before a token shows in nothing but that the token has blanks before it. -/
theorem firstToken?_space {cs rest : List Char} {t : Token} (h : firstToken? cs = some (t, rest)) :
    firstToken? (' ' :: cs) = some (t.behindBlanks, rest) := by
  obtain ⟨c, more, kind, text, hd, hr, rfl, rfl⟩ := firstToken?_eq_some.1 h
  have hgap : blanks (' ' :: cs) false = blanks cs false + 1 := by simp [blanks]
  refine firstToken?_eq_some.2 ⟨c, more, kind, text, ?_, hr, ?_, rfl⟩
  · rw [hgap, List.drop_succ_cons, hd]
  · simp [hgap, Token.bare, Token.behindBlanks]

/-! ## Tokens take characters -/

theorem string_length_pos {kind : TokenKind} {quote : Char} {opening : Nat} {body : List Char}
    (h : 0 < opening) : 0 < (string kind quote opening body).length := by
  unfold string
  split <;> simp only [plain] <;> omega

theorem symbol_length_pos (cs : List Char) : 0 < (symbol cs).length := by
  unfold symbol
  split
  · exact Nat.one_pos
  · exact Nat.two_pos
  · exact string_length_pos Nat.two_pos
  · dsimp only
    split
    · exact Nat.succ_pos _
    · split
      · split <;> split <;> simp [badSymbol, symbolOf, plain]
      · split
        · exact Nat.succ_pos _
        · split <;> exact Nat.succ_pos _

theorem operator?_ne_nil {cs op : List Char} (h : operator? cs = some op) : op ≠ [] := by
  cases cs with
  | nil => simp [operator?, operatorsOfThree, operatorsOfTwo] at h
  | cons c cs =>
    unfold operator? at h
    rintro rfl
    split at h
    · simp at h
    · split at h
      · split at h <;> simp at h
      · split at h <;> simp at h

theorem identifier_ne_nil {c : Char} (h : isNameChar c = true) (cs : List Char) :
    identifier (c :: cs) ≠ [] := by
  have hname : (c :: cs).takeWhile isNameChar ≠ [] := by simp [h]
  unfold identifier
  dsimp only
  split
  · exact hname
  · split
    · simp
    · exact hname

theorem number_length_pos {c : Char} (h : c.isDigit = true) (cs : List Char) :
    0 < (number (c :: cs)).length := by
  have hwhole : 0 < ((c :: cs).takeWhile isDigitOrBar).length := by simp [isDigitOrBar, h]
  unfold number
  dsimp only
  split <;> (try split) <;> (try split) <;> simp only [plain] <;> omega

theorem sigiled_length_pos (c : Char) (cs : List Char) : 0 < (sigiled c cs).length := by
  unfold sigiled
  split
  next kind sigil heq =>
    have hsigil : 0 < sigil.length := by
      split at heq
      · cases heq
        exact Nat.one_pos
      · split at heq <;> cases heq <;> simp
    dsimp only
    split
    · simp only [plain, List.length_append]
      omega
    · exact hsigil

/-- Every lexeme takes a character, but for one that nothing can begin with. -/
theorem ofChars_length_pos_or (c : Char) (rest : List Char) :
    0 < (ofChars c rest).length ∨
      (ofChars c rest).reading = .malformed (.unexpectedChar c) .first ∧
        (ofChars c rest).lookahead = 3 := by
  unfold ofChars
  dsimp only
  split
  · exact .inl Nat.one_pos
  split
  · exact .inl (string_length_pos Nat.one_pos)
  split
  · exact .inl (symbol_length_pos _)
  split
  · exact .inl (sigiled_length_pos _ _)
  split
  · next hd => exact .inl (number_length_pos hd _)
  split
  · next hn =>
    refine .inl (List.length_pos_iff.2 (identifier_ne_nil ?_ _))
    simp only [isNameStart, isNameChar, Char.isAlphanum, Bool.or_eq_true] at hn ⊢
    grind
  · split
    · next op hop => exact .inl (List.length_pos_iff.2 (operator?_ne_nil hop))
    · split
      · exact .inl Nat.one_pos
      · exact .inr ⟨rfl, rfl⟩

theorem ofChars_length_pos {c : Char} {rest : List Char} {kind : TokenKind} {text : String}
    (h : (ofChars c rest).reading = .token kind text) : 0 < (ofChars c rest).length :=
  (ofChars_length_pos_or c rest).resolve_right fun hbad => by
    rw [h] at hbad
    cases hbad.1

/-- The first character is always looked at. -/
theorem ofChars_looks (c : Char) (rest : List Char) :
    0 < max (ofChars c rest).length (ofChars c rest).lookahead := by
  rcases ofChars_length_pos_or c rest with h | ⟨-, h⟩ <;> omega

variable {fault : SyntaxFault} {place : LexemeEnd}

theorem string_malformed {kind : TokenKind} {quote : Char} {opening : Nat} {body : List Char}
    (h : (string kind quote opening body).reading = .malformed fault place) :
    fault = .unterminatedString ∧ place = .first := by
  unfold string at h
  split at h <;> cases h
  exact ⟨rfl, rfl⟩

theorem symbol_malformed {cs : List Char} (h : (symbol cs).reading = .malformed fault place) :
    (fault = .unterminatedString ∨ fault = .invalidSymbol) ∧ place = .first := by
  unfold symbol at h
  split at h
  · cases h
    exact ⟨.inr rfl, rfl⟩
  · cases h
  · exact (string_malformed h).imp_left .inl
  · dsimp only at h
    split at h
    · cases h
    split at h
    · split at h <;> split at h <;> cases h <;> exact ⟨.inr rfl, rfl⟩
    split at h
    · cases h
    · split at h <;> cases h <;> exact ⟨.inr rfl, rfl⟩

theorem sigiled_malformed {c : Char} {cs : List Char}
    (h : (sigiled c cs).reading = .malformed fault place) :
    fault = .unexpectedChar c ∧ place = .first := by
  unfold sigiled at h
  split at h
  dsimp only at h
  split at h <;> cases h
  exact ⟨rfl, rfl⟩

/-- A number that is no number ends with a letter. -/
theorem number_last {cs : List Char}
    (h : (number cs).reading = .malformed fault .last) :
    ∃ k d, (number cs).length = k + 1 ∧ cs[k]? = some d ∧ d ≠ '\n' := by
  unfold number at h ⊢
  dsimp only at h ⊢
  generalize (if (fraction _).isEmpty = true then _ else _ : TokenKind × List Char × Nat) = parts
    at h ⊢
  split at h
  · next c rest hdrop =>
    split at h
    · next hc =>
      refine ⟨parts.2.2, c, by simp only [hc, if_true], ?_, by rintro rfl; cases hc⟩
      rw [← List.head?_drop, hdrop]
      rfl
    · cases h
  · cases h

/-- An error at the end of a lexeme stands behind a character of the same line. -/
theorem ofChars_last {c : Char} {rest : List Char}
    (h : (ofChars c rest).reading = .malformed fault .last) :
    ∃ k d, (ofChars c rest).length = k + 1 ∧ (c :: rest)[k]? = some d ∧ d ≠ '\n' := by
  unfold ofChars at h ⊢
  dsimp only at h ⊢
  split at h
  · cases h
  split at h
  · exact nomatch (string_malformed h).2
  split at h
  · exact nomatch (symbol_malformed h).2
  split at h
  · exact nomatch (sigiled_malformed h).2
  split at h
  · next hn hq hc hs hd =>
    rw [if_neg hn, if_neg hq, if_neg hc, if_neg hs, if_pos hd]
    exact number_last h
  split at h
  · cases h
  · split at h
    · cases h
    · split at h <;> cases h

theorem firstToken?_length_lt {cs rest : List Char} {t : Token}
    (h : firstToken? cs = some (t, rest)) : rest.length < cs.length := by
  obtain ⟨c, more, kind, text, hd, hr, -, rfl⟩ := firstToken?_eq_some.1 h
  have hpos := ofChars_length_pos hr
  have hle : (c :: more).length ≤ cs.length := by
    rw [← hd, List.length_drop]
    exact Nat.sub_le _ _
  rw [List.length_drop]
  simp only [List.length_cons] at hle ⊢
  omega

end Lexeme

/-! ## All tokens -/

/-- The text reads as the tokens, up to its end. -/
inductive Reads : List Char → List Token → Prop
  | done {cs : List Char} : cs.drop (Lexeme.blanks cs false) = [] → Reads cs []
  | token {cs rest : List Char} {t : Token} {ts : List Token} :
      Lexeme.firstToken? cs = some (t, rest) → Reads rest ts → Reads cs (t :: ts)

namespace Reads

theorem nil : Reads [] [] := .done rfl

theorem space {cs : List Char} {t : Token} {ts : List Token} (h : Reads cs (t :: ts)) :
    Reads (' ' :: cs) (t.behindBlanks :: ts) := by
  cases h with
  | token hf hr => exact .token (Lexeme.firstToken?_space hf) hr

/-- The tokens that texts read as have no place. -/
theorem span_eq_default {cs : List Char} {ts : List Token} (h : Reads cs ts) :
    ∀ t ∈ ts, t.span = default := by
  induction h with
  | done _ => simp
  | token hf _ ih =>
    intro t ht
    rcases List.mem_cons.1 ht with rfl | ht
    · obtain ⟨c, more, kind, text, -, -, rfl, -⟩ := Lexeme.firstToken?_eq_some.1 hf
      rfl
    · exact ih t ht

theorem length_le {cs : List Char} {ts : List Token} (h : Reads cs ts) :
    ts.length ≤ cs.length := by
  induction h with
  | done _ => exact Nat.zero_le _
  | token hf _ ih =>
    have := Lexeme.firstToken?_length_lt hf
    rw [List.length_cons]
    omega

end Reads

/-! ## The lexer -/

namespace Lexer

/-- Without tokens given back, the next token is the first of the text ahead. -/
theorem next_of_firstToken? {l : Lexer} {t : Token} {rest : List Char} (hp : l.pushed = [])
    (h : Lexeme.firstToken? l.stream.rest = some (t, rest)) :
    ∃ span l', l.next = (.ok (some (t.placed span)), l') ∧ l'.stream.rest = rest ∧
      l'.pushed = [] := by
  obtain ⟨c, cs, kind, text, hd, hr, rfl, rfl⟩ := Lexeme.firstToken?_eq_some.1 h
  unfold next
  simp only [hp, skipBlanks, scan, Stream.advance_rest, Stream.demand_rest, hd, hr]
  exact ⟨_, _, rfl, by simp [hd], rfl⟩

theorem next_of_end {l : Lexer} (hp : l.pushed = [])
    (h : l.stream.rest.drop (Lexeme.blanks l.stream.rest false) = []) :
    ∃ l', l.next = (.ok none, l') ∧ l'.stream.rest = [] ∧ l'.pushed = [] := by
  unfold next
  simp only [hp, skipBlanks, scan, Stream.advance_rest, Stream.demand_rest, h]
  exact ⟨_, rfl, by simp [h], rfl⟩

end Lexer

end Spinel
