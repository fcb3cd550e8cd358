import Mathlib.Data.List.TakeWhile
import Spinel.Proofs.Token.Tiling

/-!
# Tokens put one space apart

The characters that a token takes read as that token wherever they stand, if a space or nothing is
behind them. So a text without malformed lexemes can be spaced anew: its tokens, put one space
apart, read as the same tokens (`Lexer.tokens_respaced`). Where they stand and whether blanks are
before them is all that changes.

A lexeme that looks at the character behind it, as names, numbers, symbols and signs do, takes it as
its end there, and neither a space nor the end of the text is anything else (`Alone`).
-/

namespace Spinel

namespace Lexeme

/-! ## Lexemes cut out of the text -/

/-- If `f` reads a token off the text, which takes some characters behind the `opening` ones, it
reads the same off those characters alone. -/
def Alone (f : List Char → Lexeme) (opening : Nat) (cs : List Char) : Prop :=
  ∀ kind text, (f cs).reading = .token kind text → f (cs.take ((f cs).length - opening)) = f cs

theorem alone_string {kind : TokenKind} {quote : Char} (hq : quote ≠ '\\') (opening : Nat)
    (body : List Char) : Alone (string kind quote opening) opening body := by
  intro _ _ h
  unfold string at h ⊢
  cases hbody : quoted quote body with
  | none => rw [hbody] at h; cases h
  | some r =>
    obtain ⟨text, n⟩ := r
    have halone := (quoted_take hq hbody).2 []
    rw [List.append_nil] at halone
    simp only [plain, Nat.add_sub_cancel_left, halone]

/-! ### Names -/

/-- A name is one without a mark, or one with a mark that no equals sign follows. -/
theorem identifier_cases (cs : List Char) :
    identifier cs = cs.takeWhile isNameChar ∨
      ∃ mark rest, cs.drop (cs.takeWhile isNameChar).length = mark :: rest ∧
        (mark = '?' ∨ mark = '!') ∧ rest.head? ≠ some '=' ∧
        identifier cs = cs.takeWhile isNameChar ++ [mark] := by
  unfold identifier
  dsimp only
  split
  · exact .inl rfl
  · next mark rest hdrop =>
    split
    · next hmark => exact .inr ⟨mark, rest, hdrop, hmark.1, hmark.2, rfl⟩
    · exact .inl rfl

theorem identifier_identifier (cs : List Char) : identifier (identifier cs) = identifier cs := by
  have hname := all_takeWhile isNameChar cs
  rcases identifier_cases cs with heq | ⟨mark, rest, -, hmark, -, heq⟩
  · rw [heq]
    have hend : EndsName [] := nofun
    simpa using identifier_append hname hend
  · have hend : isNameChar mark = false := by rcases hmark with rfl | rfl <;> decide
    have htake : (cs.takeWhile isNameChar ++ [mark]).takeWhile isNameChar =
        cs.takeWhile isNameChar :=
      takeWhile_append_stop hname fun c hc => by cases hc; exact hend
    rw [heq]
    unfold identifier
    simp only [htake, List.drop_left]
    exact if_pos ⟨hmark, nofun⟩

/-- A name before an equals sign has no mark behind it. -/
theorem identifier_before_equals {cs : List Char}
    (h : (cs.drop (identifier cs).length).head? = some '=') :
    ∀ c ∈ identifier cs, isNameChar c = true := by
  rcases identifier_cases cs with heq | ⟨mark, rest, hdrop, -, hrest, heq⟩
  · rw [heq]
    exact all_takeWhile isNameChar cs
  · rw [heq, List.length_append, ← List.drop_drop, hdrop] at h
    exact absurd h hrest

theorem setterName_cases (name cs : List Char) :
    setterName name cs = name ∨ setterName name cs = name ++ ['='] ∧ cs.head? = some '=' := by
  fun_cases setterName name cs with
  | case1 | case4 => exact .inl rfl
  | case2 | case3 => exact .inr ⟨rfl, rfl⟩

theorem alone_nameSymbol (cs : List Char) : Alone nameSymbol 1 cs := by
  intro kind text _
  unfold nameSymbol
  rcases setterName_cases (identifier cs) (cs.drop (identifier cs).length) with hname | ⟨hname, heq⟩
  · have htake : cs.take (identifier cs).length = identifier cs :=
      (List.prefix_iff_eq_take.1 (identifier_starts cs)).symm
    rw [hname]
    simp only [symbolOf, plain, Nat.add_sub_cancel, htake, identifier_identifier, List.drop_length]
    rfl
  · obtain ⟨more, hmore⟩ := List.head?_eq_some_iff.1 heq
    have htake : cs.take (identifier cs ++ ['=']).length = identifier cs ++ ['='] := by
      refine (List.prefix_iff_eq_take.1 ⟨more, ?_⟩).symm
      rw [List.append_assoc, List.singleton_append, ← hmore]
      exact (List.prefix_iff_eq_append.1 (identifier_starts cs))
    have hself : identifier (identifier cs ++ ['=']) = identifier cs :=
      identifier_append (identifier_before_equals heq) fun c hc => by cases hc; decide
    rw [hname]
    simp only [symbolOf, plain, Nat.add_sub_cancel, htake, hself, List.drop_left]
    rfl

/-! ### Numbers -/

theorem fraction_take {cs : List Char} (h : fraction cs ≠ []) :
    cs.take (1 + (fraction cs).length) = '.' :: fraction cs ∧
      fraction ('.' :: fraction cs) = fraction cs := by
  fun_cases fraction cs with
  | case1 d cs hd =>
    have hbar := isDigitOrBar_of_isDigit hd
    refine ⟨?_, ?_⟩
    · rw [Nat.add_comm, List.take_succ_cons,
        ← List.prefix_iff_eq_take.1 (List.takeWhile_prefix _)]
    · rw [List.takeWhile_cons_of_pos hbar, fraction, if_pos hd,
        List.takeWhile_cons_of_pos hbar, List.takeWhile_idem]
  | case2 d cs hd => simp [fraction, hd] at h
  | case3 cs hcs => simp [fraction] at h

theorem numberParts_take (cs : List Char) :
    numberParts (cs.take (numberParts cs).2.2) = numberParts cs := by
  have hwhole : cs.take (cs.takeWhile isDigitOrBar).length = cs.takeWhile isDigitOrBar :=
    (List.prefix_iff_eq_take.1 (List.takeWhile_prefix _)).symm
  by_cases hpart : fraction (cs.drop (cs.takeWhile isDigitOrBar).length) = []
  · have hparts : numberParts cs = (.integer, (cs.takeWhile isDigitOrBar).filter Char.isDigit,
        (cs.takeWhile isDigitOrBar).length) := by
      simp only [numberParts, hpart, List.isEmpty_nil, if_true]
    rw [hparts]
    unfold numberParts
    simp only [hwhole, List.takeWhile_idem, List.drop_length]
    rfl
  · obtain ⟨htake, hself⟩ := fraction_take hpart
    generalize hp : fraction (cs.drop (cs.takeWhile isDigitOrBar).length) = part at *
    have hne : part.isEmpty = false := by
      cases part with
      | nil => exact absurd rfl hpart
      | cons => rfl
    have hparts : numberParts cs = (.float, (cs.takeWhile isDigitOrBar).filter Char.isDigit ++
        '.' :: part.filter Char.isDigit, (cs.takeWhile isDigitOrBar).length + 1 + part.length) := by
      simp only [numberParts, hp, hne, Bool.false_eq_true, if_false]
    have hcut : cs.take ((cs.takeWhile isDigitOrBar).length + 1 + part.length) =
        cs.takeWhile isDigitOrBar ++ '.' :: part := by
      rw [Nat.add_assoc, List.take_add, hwhole, htake]
    have hstop : (cs.takeWhile isDigitOrBar ++ '.' :: part).takeWhile isDigitOrBar =
        cs.takeWhile isDigitOrBar :=
      takeWhile_append_stop (all_takeWhile _ _) fun c hc => by cases hc; decide
    rw [hparts]
    unfold numberParts
    simp only [hcut, hstop, List.drop_left, hself, hne, Bool.false_eq_true, if_false]

theorem alone_number (cs : List Char) : Alone number 0 cs := by
  intro kind text h
  rw [number_eq] at h
  have hnumber : number cs = plain (numberParts cs).1 (numberParts cs).2.1 (numberParts cs).2.2 :=
    numberBefore_of_end (end_of_numberBefore h) _
  rw [hnumber, Nat.sub_zero, number_eq]
  simp only [plain, numberParts_take, List.drop_take, Nat.sub_self, List.take_zero]
  rfl

/-! ### Variables -/

theorem sigilOf_take (first : Char) (rest : List Char) (k : Nat) :
    sigilOf first (rest.take (k + 1)) = sigilOf first rest := by
  unfold sigilOf
  cases rest <;> rfl

/-- A variable that is cut off behind its name has the same sigil and the name. -/
theorem sigilOf_cut (first : Char) (rest : List Char) {sigil name : List Char}
    (hsigil : (sigilOf first rest).2 = sigil)
    (hname : ((first :: rest).drop sigil.length).takeWhile isNameChar = name) (hne : name ≠ []) :
    sigilOf first (rest.take ((sigil ++ name).length - 1)) = sigilOf first rest ∧
      (first :: rest.take ((sigil ++ name).length - 1)).drop sigil.length = name := by
  have hpos : 0 < name.length := List.length_pos_iff.2 hne
  have hsigilpos : 0 < sigil.length := by
    rw [← hsigil]
    unfold sigilOf
    split
    · exact Nat.one_pos
    · split <;> exact Nat.succ_pos _
  obtain ⟨k, hk⟩ : ∃ k, (sigil ++ name).length - 1 = k + 1 :=
    ⟨(sigil ++ name).length - 2, by rw [List.length_append]; omega⟩
  refine ⟨by rw [hk, sigilOf_take], ?_⟩
  have htake : first :: rest.take ((sigil ++ name).length - 1) =
      (first :: rest).take (sigil.length + name.length) := by
    rw [← List.take_succ_cons, List.length_append]
    congr 1
    omega
  rw [htake, List.drop_take, Nat.add_sub_cancel_left, ← hname]
  exact (List.prefix_iff_eq_take.1 (List.takeWhile_prefix _)).symm

theorem alone_sigiled (first : Char) (rest : List Char) : Alone (sigiled first) 1 rest := by
  intro kind text h
  rw [sigiled_eq] at h
  generalize hname : (first :: rest).drop (sigilOf first rest).2.length = name at h
  unfold sigiledName at h
  split at h
  · next hstart =>
    obtain ⟨c, more, rfl⟩ : ∃ c more, name = c :: more := by
      cases name with
      | nil => cases hstart
      | cons c more => exact ⟨c, more, rfl⟩
    have hne : (c :: more).takeWhile isNameChar ≠ [] := by
      rw [List.takeWhile_cons_of_pos (isNameChar_of_start hstart)]
      exact List.cons_ne_nil _ _
    obtain ⟨hsigil, hcut⟩ := sigilOf_cut first rest rfl (by rw [hname]) hne
    rw [sigiled_eq, sigiled_eq, hname]
    have hfull : sigiledName first (sigilOf first rest).1 (sigilOf first rest).2 (c :: more) =
        plain (sigilOf first rest).1 ((sigilOf first rest).2 ++ (c :: more).takeWhile isNameChar)
          ((sigilOf first rest).2 ++ (c :: more).takeWhile isNameChar).length := if_pos hstart
    rw [hfull]
    simp only [plain]
    rw [hsigil, hcut]
    unfold sigiledName
    rw [if_pos, List.takeWhile_idem]
    · rfl
    · rw [List.takeWhile_cons_of_pos (isNameChar_of_start hstart)]
      exact hstart
  · cases h

theorem alone_variableSymbol (c : Char) (rest : List Char) : Alone (variableSymbol c) 2 rest := by
  intro kind text h
  unfold variableSymbol at h
  dsimp only at h
  split at h
  · cases h
  · next hempty =>
    have hne := mt List.isEmpty_iff.2 hempty
    obtain ⟨hsigil, hcut⟩ := sigilOf_cut c rest rfl rfl hne
    have hfull : variableSymbol c rest = symbolOf ((sigilOf c rest).2 ++
        ((c :: rest).drop (sigilOf c rest).2.length).takeWhile isNameChar) := if_neg hempty
    rw [hfull]
    simp only [symbolOf, plain, Nat.add_sub_add_right _ 1 1]
    unfold variableSymbol
    simp only [hsigil, hcut, List.takeWhile_idem]
    exact if_neg hempty

/-! ### Operators -/

/-- The operators. -/
def operators : List (List Char) :=
  operatorsOfThree ++ operatorsOfTwo ++ operatorsOfOne.map fun c => [c]

theorem operator?_mem {cs op : List Char} (h : operator? cs = some op) : op ∈ operators := by
  have htwo : ∀ op ∈ operatorsOfTwo, isSignName op = true → op.take 1 ∈ operators := by decide
  unfold operator? at h
  split at h
  · next hmem =>
    cases h
    exact List.mem_append_left _ (List.mem_append_left _ hmem)
  · split at h
    · next hmem =>
      split at h
      · next hsign =>
        cases h
        have := htwo _ hmem (Bool.and_eq_true_iff.1 hsign).1
        rwa [List.take_take] at this
      · cases h
        exact List.mem_append_left _ (List.mem_append_right _ hmem)
    · split at h
      · cases h
      · split at h
        · next hmem =>
          cases h
          exact List.mem_append_right _ (List.mem_map_of_mem hmem)
        · cases h

/-- An operator is one on its own. -/
theorem operator?_take {cs op : List Char} (h : operator? cs = some op) :
    operator? (cs.take op.length) = some op := by
  have hself : ∀ op ∈ operators, operator? op = some op := by decide
  rw [← List.prefix_iff_eq_take.1 (operator?_starts h)]
  exact hself op (operator?_mem h)

theorem alone_operatorSymbol (cs : List Char) : Alone operatorSymbol 1 cs := by
  intro kind text h
  unfold operatorSymbol at h ⊢
  cases hop : operator? cs with
  | some op => simp only [symbolOf, plain, Nat.add_sub_cancel, operator?_take hop]
  | none =>
    rw [hop] at h
    dsimp only at h ⊢
    split at h
    · rfl
    · rfl
    all_goals cases h

/-- A symbol takes a character behind the colon. -/
theorem symbol_length_ge {c : Char} {rest : List Char} {kind : TokenKind} {text : String}
    (h : (symbol (c :: rest)).reading = .token kind text) : 2 ≤ (symbol (c :: rest)).length := by
  by_cases hcolon : c = ':'
  · subst hcolon
    exact Nat.le_refl 2
  by_cases hquote : c = '"'
  · subst hquote
    simp only [symbol, string]
    split <;> simp only [plain] <;> omega
  rw [symbol_cons hcolon hquote] at h ⊢
  by_cases hname : isNameStart c = true
  · rw [if_pos hname]
    have hpos := List.length_pos_iff.2 (identifier_ne_nil (isNameChar_of_start hname) rest)
    simp only [nameSymbol, symbolOf, plain]
    rcases setterName_cases (identifier (c :: rest))
      ((c :: rest).drop (identifier (c :: rest)).length) with heq | ⟨heq, -⟩
    · rw [heq]
      omega
    · rw [heq, List.length_append]
      omega
  rw [if_neg hname] at h ⊢
  by_cases hsigil : c = '@' ∨ c = '$'
  · rw [if_pos hsigil] at h ⊢
    unfold variableSymbol at h ⊢
    dsimp only at h ⊢
    split
    · next hempty => rw [if_pos hempty] at h; cases h
    · next hempty =>
      have hpos := List.length_pos_iff.2 (mt List.isEmpty_iff.2 hempty)
      simp only [symbolOf, plain, List.length_append]
      omega
  · rw [if_neg hsigil] at h ⊢
    unfold operatorSymbol at h ⊢
    cases hop : operator? (c :: rest) with
    | some op =>
      have hpos := List.length_pos_iff.2 (operator?_ne_nil hop)
      simp only [symbolOf, plain]
      omega
    | none =>
      rw [hop] at h
      dsimp only at h ⊢
      split at h
      · exact Nat.le_add_left 2 2
      · exact Nat.le_succ 2
      all_goals cases h

theorem alone_symbol (cs : List Char) : Alone symbol 1 cs := by
  intro kind text h
  match cs with
  | [] => cases h
  | c :: rest =>
    by_cases hcolon : c = ':'
    · subst hcolon
      rfl
    -- The first character is kept, and it says which kind of symbol this is.
    have hcut : (c :: rest).take ((symbol (c :: rest)).length - 1) =
        c :: rest.take ((symbol (c :: rest)).length - 2) := by
      have hlen := symbol_length_ge h
      rw [← List.take_succ_cons]
      congr 1
      omega
    by_cases hquote : c = '"'
    · subst hquote
      rw [hcut]
      exact alone_string (by decide) 2 rest kind text h
    have hsymbol := symbol_cons hcolon hquote rest
    have hself := symbol_cons hcolon hquote (rest.take ((symbol (c :: rest)).length - 2))
    rw [← hcut] at hself
    rw [hself]
    by_cases hname : isNameStart c = true
    · rw [if_pos hname] at hsymbol ⊢
      rw [hsymbol] at h ⊢
      exact alone_nameSymbol _ _ _ h
    rw [if_neg hname] at hsymbol ⊢
    by_cases hsigil : c = '@' ∨ c = '$'
    · rw [if_pos hsigil] at hsymbol ⊢
      rw [hsymbol] at h ⊢
      exact alone_variableSymbol _ _ _ _ h
    · rw [if_neg hsigil] at hsymbol ⊢
      rw [hsymbol] at h ⊢
      exact congrArg (fun l : Lexeme => { l with lookahead := 4 }) (alone_operatorSymbol _ _ _ h)

/-- The characters that a token takes read as that token. -/
theorem alone_ofChars (c : Char) (rest : List Char) : Alone (ofChars c) 1 rest := by
  intro kind text h
  have hcut : c :: rest.take ((ofChars c rest).length - 1) =
      (c :: rest).take (ofChars c rest).length := by
    have hpos := ofChars_length_pos h
    rw [← List.take_succ_cons]
    congr 1
    omega
  generalize hrest : rest.take ((ofChars c rest).length - 1) = rest' at hcut ⊢
  unfold ofChars at h hcut hrest ⊢
  dsimp only at h hcut hrest ⊢
  by_cases hfeed : c = '\n'
  · rw [if_pos hfeed, if_pos hfeed]
  simp only [if_neg hfeed] at h hcut hrest ⊢
  by_cases hquote : c = '"' ∨ c = '\''
  · simp only [if_pos hquote] at h hrest ⊢
    rw [← hrest]
    exact alone_string (by rcases hquote with rfl | rfl <;> decide) 1 rest _ _ h
  simp only [if_neg hquote] at h hcut hrest ⊢
  by_cases hcolon : c = ':'
  · simp only [if_pos hcolon] at h hrest ⊢
    rw [← hrest]
    exact alone_symbol rest _ _ h
  simp only [if_neg hcolon] at h hcut hrest ⊢
  by_cases hsigil : c = '@' ∨ c = '$'
  · simp only [if_pos hsigil] at h hrest ⊢
    rw [← hrest]
    exact alone_sigiled c rest _ _ h
  simp only [if_neg hsigil] at h hcut ⊢
  by_cases hdigit : c.isDigit = true
  · simp only [if_pos hdigit] at h hcut ⊢
    rw [hcut]
    exact alone_number (c :: rest) _ _ h
  simp only [if_neg hdigit] at h hcut ⊢
  by_cases hname : isNameStart c = true
  · simp only [if_pos hname, plain] at hcut ⊢
    rw [hcut, ← List.prefix_iff_eq_take.1 (identifier_starts (c :: rest)), identifier_identifier]
  simp only [if_neg hname] at h hcut ⊢
  cases hop : operator? (c :: rest) with
  | some op =>
    simp only [hop, plain] at hcut ⊢
    rw [hcut, operator?_take hop]
  | none =>
    have hself : separators.all (fun c => (operator? [c]).isNone) = true := by decide
    simp only [hop] at h hcut ⊢
    split at h
    · next hmem =>
      simp only [if_pos hmem, plain, List.take_succ_cons, List.take_zero] at hcut ⊢
      rw [hcut, Option.isNone_iff_eq_none.1 (List.all_eq_true.1 hself c hmem)]
    · cases h

/-! ## Lexemes put into another text -/

theorem opensBlank_eq_false_of_token {c : Char} {rest : List Char} {kind : TokenKind}
    {text : String} (h : (ofChars c rest).reading = .token kind text) : opensBlank c = false := by
  refine eq_false_of_ne_true fun hblank => ?_
  have hbad : (ofChars c rest).reading = .malformed (.unexpectedChar c) .first := by
    simp only [opensBlank, Bool.or_eq_true, beq_iff_eq] at hblank
    rcases hblank with (((rfl | rfl) | rfl) | rfl) | rfl <;> rfl
  rw [hbad] at h
  cases h

/-- The lexeme of the first token of a text, put before a space or at the end of a text, reads as
the token. -/
theorem firstToken?_cut {cs rest : List Char} {t : Token} (h : firstToken? cs = some (t, rest)) :
    ∃ lexeme, cs = gap cs ++ (lexeme ++ rest) ∧ ∀ more, more = [] ∨ more.head? = some ' ' →
      firstToken? (lexeme ++ more) = some (.bare t.kind t.text false, more) := by
  obtain ⟨c, ahead, kind, text, hd, hr, rfl, rfl⟩ := firstToken?_eq_some.1 h
  have halone := alone_ofChars c ahead kind text hr
  have hlen := ofChars_length_le hr
  have hpos := ofChars_length_pos hr
  generalize hn : (ofChars c ahead).length = n at *
  generalize htaken : ahead.take (n - 1) = taken at *
  have htake : (c :: ahead).take n = c :: taken := by
    rw [← htaken, ← List.take_succ_cons, Nat.sub_add_cancel hpos]
  have htakenlen : (c :: taken).length = n := by
    rw [← htake, List.length_take, Nat.min_eq_left hlen]
  refine ⟨c :: taken, ?_, fun more hmore => ?_⟩
  · rw [← htake, List.take_append_drop, ← hd]
    exact (List.take_append_drop _ _).symm
  -- What follows the lexeme now does not change it.
  have hmoved : ofChars c (taken ++ more) = ofChars c ahead := by
    rcases hmore with rfl | hspace
    · rw [List.append_nil, halone]
    · obtain ⟨more, rfl⟩ := List.head?_eq_some_iff.1 hspace
      rw [(settled_ofChars c taken kind text (by rw [halone, hr])).2 ' ' (.inl rfl), halone]
  have hread : (ofChars c (taken ++ more)).reading = .token kind text := by rw [hmoved, hr]
  rw [List.cons_append,
    firstToken?_of_reading (blanks_eq_zero (opensBlank_eq_false_of_token hr) _) hread, hmoved, hn,
    ← List.cons_append, ← htakenlen, List.drop_left]
  rfl

end Lexeme

/-! ## Texts spaced anew -/

namespace Token

/-- The characters of a token in the text it was read from. -/
def slice (text : List Char) (t : Token) : List Char :=
  (text.drop t.span.start.offset).take t.span.length

/-- What a token says, wherever it stands. -/
def content (t : Token) : TokenKind × String := (t.kind, t.text)

end Token

/-- The tokens of a text, one space apart. -/
def respaced (text : String) (ts : List Token) : String :=
  String.ofList ([' '].intercalate (ts.map (·.slice text.toList)))

theorem Reads.cons_lexeme {lexeme cs : List Char} {t : Token} {us : List Token}
    (hlexeme : ∀ more, more = [] ∨ more.head? = some ' ' →
      Lexeme.firstToken? (lexeme ++ more) = some (t, more))
    (h : Reads cs us) (hne : us ≠ []) : ∃ vs, Reads (lexeme ++ ' ' :: cs) (t :: vs) ∧
      vs.map Token.content = us.map Token.content := by
  cases h with
  | done => exact absurd rfl hne
  | @token _ rest u us hfirst hrest =>
    exact ⟨u.behindBlanks :: us, .token (hlexeme _ (.inr rfl)) (Reads.token hfirst hrest).space,
      rfl⟩

namespace Lexer

/-- The tokens ahead, one space apart, read as themselves. -/
theorem tokensUpTo_reads {n : Nat} {l : Lexer} {before : List Char} {ts : List Token}
    (hp : l.pushed = []) (hplace : l.stream.position = .after before)
    (hn : l.stream.rest.length < n) (h : tokensUpTo n l = (ts, none)) :
    ∃ us, Reads ([' '].intercalate (ts.map (·.slice (before ++ l.stream.rest)))) us ∧
      us.map Token.content = ts.map Token.content := by
  -- The characters read so far move from what is ahead to `before`, and the text stays the same.
  induction n generalizing l before ts with
  | zero => exact absurd hn (Nat.not_lt_zero _)
  | succ n ih =>
    obtain ⟨hend, rfl⟩ | ⟨first, u, l', behind, hfirst, hnext', htail, rfl⟩ :=
      tokensUpTo_cases hp h
    · exact ⟨[], .nil, rfl⟩
    · obtain ⟨t, rest⟩ := first
      obtain ⟨lexeme, _, hsplit, -, hnext, hrest, hpushed, hposition⟩ := next_of_split hp hfirst
      cases hnext.symm.trans hnext'
      obtain ⟨lexeme', hsplit', hcut⟩ := Lexeme.firstToken?_cut hfirst
      obtain rfl : lexeme = lexeme' :=
        List.append_cancel_right (List.append_cancel_left (hsplit.symm.trans hsplit'))
      rw [hplace, Position.after_advance] at hposition ⊢
      rw [Position.after_advance] at hposition
      have hlt := Lexeme.firstToken?_length_lt hfirst
      obtain ⟨us, hreads, hcontent⟩ :=
        ih hpushed hposition (by rw [hrest]; omega) htail
      have htext : before ++ l.stream.rest =
          before ++ Lexeme.gap l.stream.rest ++ lexeme ++ l'.stream.rest := by
        rw [hrest, List.append_assoc, List.append_assoc, ← hsplit]
      have hslice : Token.slice (before ++ l.stream.rest) (t.placed
          ⟨.after (before ++ Lexeme.gap l.stream.rest), lexeme.length⟩) = lexeme := by
        rw [htext, Token.slice, List.append_assoc]
        exact (congrArg (List.take _) List.drop_left).trans List.take_left
      rw [List.map_cons, hslice, htext]
      by_cases hlast : us = []
      · subst hlast
        have hread := hcut [] (.inl rfl)
        rw [List.append_nil] at hread
        rw [List.map_eq_nil_iff.1 hcontent.symm, List.map_nil, List.intercalate_singleton]
        exact ⟨_, .token hread .nil, rfl⟩
      · obtain ⟨vs, hvs, hsame⟩ := Reads.cons_lexeme hcut hreads hlast
        refine ⟨.bare t.kind t.text false :: vs, ?_, congrArg (_ :: ·) (hsame.trans hcontent)⟩
        rw [List.intercalate_cons_of_ne_nil, List.append_assoc]
        · exact hvs
        · refine fun hnil => hlast (List.map_eq_nil_iff.1 (hcontent.trans ?_))
          rw [List.map_eq_nil_iff.1 hnil]
          rfl

/-- The lexer gives the tokens that a text reads as. -/
theorem tokensUpTo_of_reads {n : Nat} {l : Lexer} {us : List Token} (hp : l.pushed = [])
    (hn : l.stream.rest.length < n) (h : Reads l.stream.rest us) :
    ∃ vs, tokensUpTo n l = (vs, none) ∧ vs.map Token.content = us.map Token.content := by
  generalize hcs : l.stream.rest = cs at h hn
  induction h generalizing n l with
  | done hend =>
    obtain ⟨n, rfl⟩ : ∃ k, n = k + 1 := ⟨n - 1, by omega⟩
    subst hcs
    obtain ⟨l', hnext, -, -⟩ := next_of_end hp hend
    exact ⟨[], by rw [tokensUpTo, hnext], rfl⟩
  | @token _ _ t _ hfirst _ ih =>
    obtain ⟨n, rfl⟩ : ∃ k, n = k + 1 := ⟨n - 1, by omega⟩
    subst hcs
    obtain ⟨span, l', hnext, hrest, hpushed⟩ := next_of_firstToken? hp hfirst
    have hlt := Lexeme.firstToken?_length_lt hfirst
    obtain ⟨vs, hvs, hcontent⟩ := ih (n := n) hpushed hrest (by omega)
    refine ⟨t.placed span :: vs, ?_, congrArg (_ :: ·) hcontent⟩
    rw [tokensUpTo, hnext]
    dsimp only
    rw [hvs]

/-- The tokens of a text without malformed lexemes, put one space apart, are a text without
malformed lexemes, and its tokens have the same kinds and texts in the same order. -/
theorem tokens_respaced (text : String) {s : Stream} (hs : s = .ofText text ∨ s = .ofReader text)
    {ts : List Token} (h : tokens s = (ts, none)) :
    ∀ s', s' = .ofText (respaced text ts) ∨ s' = .ofReader (respaced text ts) →
      ∃ us, tokens s' = (us, none) ∧
        us.map (fun t => (t.kind, t.text)) = ts.map fun t => (t.kind, t.text) := by
  intro s' hs'
  have hrest : s.rest = text.toList := by rcases hs with rfl | rfl <;> rfl
  have hplace : s.position = .after [] := by rcases hs with rfl | rfl <;> rfl
  have hrest' : s'.rest = (respaced text ts).toList := by rcases hs' with rfl | rfl <;> rfl
  obtain ⟨us, hreads, hcontent⟩ := tokensUpTo_reads (l := ⟨s, []⟩) rfl hplace (Nat.lt_succ_self _) h
  rw [List.nil_append, hrest] at hreads
  have hreads' : Reads s'.rest us := by
    rw [hrest', respaced, String.toList_ofList]
    exact hreads
  obtain ⟨vs, hvs, hsame⟩ := tokensUpTo_of_reads (l := ⟨s', []⟩) rfl (Nat.lt_succ_self _) hreads'
  exact ⟨vs, hvs, hsame.trans hcontent⟩

/-- A text in which the spaces make a difference to how the lexemes end. -/
theorem tokens_respaced_sample :
    respaced "x.y?:a=-@b# c\n 'd e'+1.5" (tokens (.ofText "x.y?:a=-@b# c\n 'd e'+1.5")).1 =
        "x . y? :a= - @b \n 'd e' + 1.5" ∧
      ∃ us, tokens (.ofText (respaced "x.y?:a=-@b# c\n 'd e'+1.5"
          (tokens (.ofText "x.y?:a=-@b# c\n 'd e'+1.5")).1)) = (us, none) ∧
        us.map (fun t => (t.kind, t.text)) =
          (tokens (.ofText "x.y?:a=-@b# c\n 'd e'+1.5")).1.map fun t => (t.kind, t.text) :=
  ⟨by decide +kernel,
    tokens_respaced "x.y?:a=-@b# c\n 'd e'+1.5" (.inl rfl) (Prod.ext rfl (by decide +kernel)) _
      (.inl rfl)⟩

end Lexer

end Spinel
