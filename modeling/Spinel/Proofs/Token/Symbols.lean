import Spinel.Proofs.Token.Signs

/-!
# Symbols without quotes

Which names can stand behind a colon without quotes is said twice: by the lexer, and by
`Text.isPlainSymbol`, which decides how symbols are shown. `SymbolName` is the lexer's side, one
constructor for each shape of names (`readsAs_symbol_iff`). The other side goes further by one
operator, by letters and digits other than those of ASCII, and by marks behind variables
(`Lexer.plain_symbol_read_iff`).

Behind the name an arrow may follow without a space, as in hashes that are shown. The name keeps to
itself there unless it takes an equals sign to a longer one (`Lexer.symbol_before_arrow_iff`).
-/

namespace Spinel

namespace Lexeme

/-! ## Names of symbols -/

/-- The names that are read behind a colon. -/
inductive SymbolName : List Char → Prop
  | word {cs : List Char} (hcs : IsWord cs) : SymbolName cs
  | marked {cs : List Char} {mark : Char} (hcs : IsWord cs) (hmark : mark = '?' ∨ mark = '!') :
      SymbolName (cs ++ [mark])
  | setter {cs : List Char} (hcs : IsWord cs) : SymbolName (cs ++ ['='])
  | sigiled (sigil : Sigil) {cs : List Char} (hne : cs ≠ [])
      (hcs : ∀ c ∈ cs, isNameChar c = true) : SymbolName (sigil.text.toList ++ cs)
  | operator {op : List Char} (hop : op ∈ operators) : SymbolName op
  | item : SymbolName ['[', ']']
  | setItem : SymbolName ['[', ']', '=']

variable {cs rest : List Char}

theorem firstToken?_symbol (h : symbol (cs ++ rest) = symbolOf cs) :
    firstToken? (':' :: (cs ++ rest)) = some (.bare .symbol (String.ofList cs) false, rest) := by
  have hof : ofChars ':' (cs ++ rest) = symbolOf cs := h
  rw [firstToken?_of_reading (blanks_eq_zero (by decide) _) (by rw [hof]; rfl), hof]
  simp [symbolOf, plain]

theorem symbol_of_isWord (h : IsWord cs) (rest : List Char) :
    symbol (cs ++ rest) = nameSymbol (cs ++ rest) := by
  cases cs with
  | nil => exact absurd h.1 (by decide)
  | cons c cs =>
    have hc : isNameStart c = true := h.1
    have hne : ∀ d : Char, isNameStart d = false → c ≠ d := by
      rintro d hd rfl
      rw [hc] at hd
      cases hd
    rw [List.cons_append, symbol_cons (hne ':' (by decide)) (hne '"' (by decide)), if_pos hc]

/-- A word behind a colon is a symbol before anything that does not continue it. -/
theorem symbol_word (h : IsWord cs) (hend : EndsName rest) :
    symbol (cs ++ rest) = symbolOf (setterName cs rest) := by
  rw [symbol_of_isWord h, nameSymbol, identifier_append h.2 hend, List.drop_left]

theorem symbol_marked (h : IsWord cs) {mark : Char} (hmark : mark = '?' ∨ mark = '!') :
    symbol (cs ++ [mark]) = symbolOf (cs ++ [mark]) := by
  have hstop : ∀ c, [mark].head? = some c → isNameChar c = false := by
    rcases hmark with rfl | rfl <;> (intro c hc; cases hc; decide)
  have hid : identifier (cs ++ [mark]) = cs ++ [mark] := by
    unfold identifier
    simp only [takeWhile_append_stop h.2 hstop, List.drop_left]
    exact if_pos ⟨hmark, nofun⟩
  rw [symbol_of_isWord h, nameSymbol, hid, List.drop_length]
  rfl

theorem symbol_variable (sigil : Sigil) (hne : cs ≠ []) (hcs : ∀ c ∈ cs, isNameChar c = true)
    (rest : List Char) (hrest : ∀ c, rest.head? = some c → isNameChar c = false) :
    symbol (sigil.text.toList ++ cs ++ rest) = symbolOf (sigil.text.toList ++ cs) := by
  have hat : (cs ++ rest).head? ≠ some '@' := by
    cases cs with
    | nil => exact absurd rfl hne
    | cons c cs =>
      intro hhead
      cases hhead
      exact absurd (hcs _ List.mem_cons_self) (by decide)
  obtain ⟨first, more, htext, hfirst, hsigil⟩ := sigilOf_text sigil hat
  have hsymbol : symbol (first :: more) = variableSymbol first more := by
    rcases hfirst with rfl | rfl
    · exact symbol_cons (by decide) (by decide) more
    · exact symbol_cons (by decide) (by decide) more
  have hname : (cs ++ rest).takeWhile isNameChar = cs := takeWhile_append_stop hcs hrest
  rw [List.append_assoc, htext, hsymbol, variableSymbol, hsigil, ← htext]
  simp only [List.drop_left, hname]
  exact if_neg (by simpa using hne)

/-! ## Every symbol has such a name -/

/-- A symbol in quotes does not stand for its own spelling. -/
theorem string_reading_ne {body : List Char} :
    (string .symbol '"' 2 body).reading ≠ .token .symbol (String.ofList ('"' :: body)) := by
  unfold string
  split
  · next text n hbody =>
    intro h
    obtain rfl : text = '"' :: body := String.ofList_injective (Reading.token.inj h).2
    obtain ⟨hle, inner, -, rfl, hcontents⟩ := quoted_contents (by decide) hbody
    have hlt := hcontents.length_le
    rw [List.length_cons] at hlt
    omega
  · exact nofun

/-- What stands before a mark is a word, if it begins like one. -/
theorem isWord_of_append {mark : Char}
    (hstart : (cs ++ [mark]).head?.any isNameStart = true) (hcs : ∀ c ∈ cs, isNameChar c = true)
    (hmark : isNameStart mark = false) : IsWord cs := by
  refine ⟨?_, hcs⟩
  cases cs with
  | nil =>
    rw [List.nil_append, List.head?_cons, Option.any_some, hmark] at hstart
    exact absurd hstart (by decide)
  | cons c cs => exact hstart

theorem symbolName_of_nameSymbol (hstart : cs.head?.any isNameStart = true)
    (h : setterName (identifier cs) (cs.drop (identifier cs).length) = cs) : SymbolName cs := by
  rcases setterName_cases (identifier cs) (cs.drop (identifier cs).length) with hname | ⟨hname, heq⟩
  · rw [hname] at h
    rcases identifier_cases cs with hid | ⟨mark, _, -, hmark, -, hid⟩
    · exact .word ⟨hstart, List.takeWhile_eq_self_iff.1 (hid.symm.trans h)⟩
    · rw [← h, hid] at hstart ⊢
      refine .marked (isWord_of_append hstart (all_takeWhile isNameChar cs) ?_) hmark
      rcases hmark with rfl | rfl <;> decide
  · rw [hname] at h
    rw [← h] at hstart
    rw [← h]
    exact .setter (isWord_of_append hstart (identifier_before_equals heq) (by decide))

theorem symbolName_of_variableSymbol {c : Char} (hsigil : c = '@' ∨ c = '$')
    (h : (variableSymbol c rest).reading = .token .symbol (String.ofList (c :: rest))) :
    SymbolName (c :: rest) := by
  unfold variableSymbol at h
  dsimp only at h
  generalize hname : ((c :: rest).drop (sigilOf c rest).2.length).takeWhile isNameChar = name at h
  split at h
  · cases h
  · next hne =>
    have hcs : (sigilOf c rest).2 ++ name = c :: rest :=
      String.ofList_injective (Reading.token.inj h).2
    obtain ⟨sigil, htext⟩ : ∃ sigil : Sigil, (sigilOf c rest).2 = sigil.text.toList := by
      unfold sigilOf
      rcases hsigil with rfl | rfl
      · rw [if_neg (by decide)]
        split
        · exact ⟨.classVar, rfl⟩
        · exact ⟨.instanceVar, rfl⟩
      · exact ⟨.globalVar, rfl⟩
    rw [← hcs, htext]
    refine .sigiled sigil (by simpa using hne) ?_
    rw [← hname]
    exact all_takeWhile isNameChar _

theorem symbolName_of_operatorSymbol
    (h : (operatorSymbol cs).reading = .token .symbol (String.ofList cs)) : SymbolName cs := by
  unfold operatorSymbol at h
  split at h
  · next op hop =>
    obtain rfl : op = cs := String.ofList_injective (Reading.token.inj h).2
    exact .operator (operator?_mem hop)
  · split at h
    · rw [← String.ofList_injective (Reading.token.inj h).2]
      exact .setItem
    · rw [← String.ofList_injective (Reading.token.inj h).2]
      exact .item
    all_goals cases h

theorem symbolName_of_reading (h : (symbol cs).reading = .token .symbol (String.ofList cs)) :
    SymbolName cs := by
  cases cs with
  | nil => cases h
  | cons c rest =>
    by_cases hcolon : c = ':'
    · subst hcolon
      cases h
    by_cases hquote : c = '"'
    · subst hquote
      exact absurd h string_reading_ne
    rw [symbol_cons hcolon hquote] at h
    split at h
    · next hstart =>
      exact symbolName_of_nameSymbol hstart (String.ofList_injective (Reading.token.inj h).2)
    · split at h
      · next hsigil => exact symbolName_of_variableSymbol hsigil h
      · exact symbolName_of_operatorSymbol h

theorem readsAs_of_symbol (h : symbol cs = symbolOf cs) :
    ReadsAs (':' :: cs) [(.symbol, String.ofList cs)] := by
  have hsymbol : symbol (cs ++ []) = symbolOf cs := by rw [List.append_nil, h]
  have hfirst := firstToken?_symbol hsymbol
  rw [List.append_nil] at hfirst
  exact (readsAs_of_firstToken? hfirst).2 ⟨rfl, readsAs_nil.2 rfl⟩

/-- The names that are no words and no variables. -/
theorem readsAs_operator : ∀ op ∈ ['[', ']'] :: ['[', ']', '='] :: operators,
    ReadsAs (':' :: op) [(.symbol, String.ofList op)] := by
  have hcuts : ∀ op ∈ ['[', ']'] :: ['[', ']', '='] :: operators,
      Lexer.CutsInto (String.ofList (':' :: op)) [(.symbol, String.ofList op)] := by
    decide
  intro op hop
  have hreads := Lexer.cutsInto_iff.1 (hcuts op hop)
  rwa [String.toList_ofList] at hreads

/-- The names that read as symbols behind a colon, up to the end of the text. -/
theorem readsAs_symbol_iff :
    ReadsAs (':' :: cs) [(.symbol, String.ofList cs)] ↔ SymbolName cs := by
  constructor
  · intro h
    obtain ⟨t, rest, hfirst, hcontent, -⟩ := readsAs_cons.1 h
    obtain ⟨c, more, kind, text, hdrop, hreading, rfl, -⟩ := firstToken?_eq_some.1 hfirst
    have hgap : blanks (':' :: cs) false = 0 := blanks_eq_zero (by decide) cs
    rw [hgap] at hdrop
    cases hdrop
    cases hcontent
    exact symbolName_of_reading hreading
  · intro h
    cases h with
    | word hcs =>
      have hend : EndsName [] := nofun
      have hsymbol := symbol_word hcs hend
      rw [List.append_nil] at hsymbol
      exact readsAs_of_symbol hsymbol
    | marked hcs hmark => exact readsAs_of_symbol (symbol_marked hcs hmark)
    | setter hcs =>
      refine readsAs_of_symbol (symbol_word hcs fun c hc => ?_)
      cases hc
      decide
    | sigiled sigil hne hcs =>
      have hsymbol := symbol_variable sigil hne hcs [] nofun
      rw [List.append_nil] at hsymbol
      exact readsAs_of_symbol hsymbol
    | operator hop => exact readsAs_operator _ (List.mem_cons_of_mem _ (List.mem_cons_of_mem _ hop))
    | item => exact readsAs_operator _ List.mem_cons_self
    | setItem => exact readsAs_operator _ (List.mem_cons_of_mem _ List.mem_cons_self)

/-! ## Facts about names of symbols -/

theorem isNameChar_lt {c : Char} (h : isNameChar c = true) : c.toNat < 128 := by
  rcases isNameChar_iff.1 h with h | h
  · rw [isNameStart_iff] at h
    omega
  · rw [isDigit_iff_toNat] at h
    omega

theorem ascii_of_all (h : cs.all (·.toNat < 128) = true) : ∀ c ∈ cs, c.toNat < 128 :=
  fun c hc => of_decide_eq_true (List.all_eq_true.1 h c hc)

theorem SymbolName.ascii (h : SymbolName cs) : ∀ c ∈ cs, c.toNat < 128 := by
  have hall : ∀ {cs : List Char}, (∀ c ∈ cs, isNameChar c = true) → ∀ c ∈ cs, c.toNat < 128 :=
    fun hcs c hc => isNameChar_lt (hcs c hc)
  cases h with
  | word hcs => exact hall hcs.2
  | marked hcs hmark =>
    refine List.forall_mem_append.2 ⟨hall hcs.2, List.forall_mem_singleton.2 ?_⟩
    rcases hmark with rfl | rfl <;> decide
  | setter hcs =>
    exact List.forall_mem_append.2 ⟨hall hcs.2, List.forall_mem_singleton.2 (by decide)⟩
  | sigiled sigil _ hcs =>
    refine List.forall_mem_append.2 ⟨ascii_of_all ?_, hall hcs⟩
    cases sigil <;> decide
  | operator hop =>
    have hops : operators.all (·.all (·.toNat < 128)) = true := by decide
    exact ascii_of_all (List.all_eq_true.1 hops _ hop)
  | item | setItem => exact ascii_of_all (by decide)

end Lexeme

namespace Text

open Lexeme

variable {cs : List Char}

theorem withoutSigil_cases (cs : List Char) :
    withoutSigil cs = cs ∨ ∃ sigil : Sigil, cs = sigil.text.toList ++ withoutSigil cs := by
  unfold withoutSigil
  split
  · exact .inr ⟨.classVar, rfl⟩
  · exact .inr ⟨.instanceVar, rfl⟩
  · exact .inr ⟨.globalVar, rfl⟩
  · exact .inl rfl

theorem withoutSigil_of_isWord (h : IsWord cs) (rest : List Char) :
    withoutSigil (cs ++ rest) = cs ++ rest := by
  refine (withoutSigil_cases _).resolve_right ?_
  rintro ⟨sigil, heq⟩
  have hhead : (cs ++ rest).head? = some '@' ∨ (cs ++ rest).head? = some '$' := by
    rw [heq]
    cases sigil with
    | instanceVar | classVar => exact .inl rfl
    | globalVar => exact .inr rfl
  cases cs with
  | nil => exact absurd h.1 (by decide)
  | cons c cs => exact hhead.elim (h.head?_ne (by decide)) (h.head?_ne (by decide))

theorem withoutMark_cases (cs : List Char) : withoutMark cs = cs ∨
    ∃ mark, (mark = '?' ∨ mark = '!' ∨ mark = '=') ∧ cs = withoutMark cs ++ [mark] := by
  unfold withoutMark
  split
  · next c hlast =>
    split
    · next hmark =>
      refine .inr ⟨c, by simpa [or_assoc] using hmark, ?_⟩
      obtain ⟨front, rfl⟩ := List.getLast?_eq_some_iff.1 hlast
      rw [List.dropLast_concat]
    · exact .inl rfl
  · exact .inl rfl

theorem withoutMark_append (front : List Char) (hne : cs ≠ []) :
    withoutMark (front ++ cs) = front ++ withoutMark cs := by
  obtain ⟨middle, last, rfl⟩ := (List.eq_nil_or_concat cs).resolve_left hne
  rw [List.concat_eq_append, ← List.append_assoc]
  simp only [withoutMark, List.getLast?_concat, List.dropLast_concat]
  split
  · rfl
  · rw [List.append_assoc]

theorem withoutMark_of_isNameChar (hcs : ∀ c ∈ cs, isNameChar c = true) : withoutMark cs = cs := by
  refine (withoutMark_cases cs).resolve_right ?_
  rintro ⟨mark, hmark, heq⟩
  have hlast := hcs mark (heq ▸ List.mem_append_right _ (List.mem_singleton_self mark))
  rcases hmark with rfl | rfl | rfl <;> exact absurd hlast (by decide)

/-- Among the ASCII characters, names of both kinds are made of the same ones. -/
theorem opensName_eq_of_ascii {c : Char} (hc : c.toNat < 128) :
    opensName c = isNameStart c ∧ continuesName c = isNameChar c := by
  have hall : ∀ n < 128, opensName (Char.ofNat n) = isNameStart (Char.ofNat n) ∧
      continuesName (Char.ofNat n) = isNameChar (Char.ofNat n) := by
    decide
  have hchar := hall c.toNat hc
  rwa [Char.ofNat_toNat] at hchar

theorem isWord_of_isName (hascii : ∀ c ∈ cs, c.toNat < 128) (h : isName cs = true) :
    IsWord cs := by
  cases cs with
  | nil => cases h
  | cons c cs =>
    obtain ⟨hc, hcs⟩ := List.forall_mem_cons.1 hascii
    rw [isName, Bool.and_eq_true, List.all_eq_true, (opensName_eq_of_ascii hc).1] at h
    refine ⟨h.1, List.forall_mem_cons.2 ⟨isNameChar_of_start h.1, fun d hd => ?_⟩⟩
    rw [← (opensName_eq_of_ascii (hcs d hd)).2]
    exact h.2 d hd

/-- Names of symbols that are read do not have both a sigil and a mark. -/
theorem withoutSigil_or_withoutMark (h : SymbolName cs) :
    withoutSigil cs = cs ∨ withoutMark cs = cs := by
  cases h with
  | word hcs => exact .inl (by simpa using withoutSigil_of_isWord hcs [])
  | marked hcs _ | setter hcs => exact .inl (withoutSigil_of_isWord hcs _)
  | sigiled sigil hne hcs =>
    exact .inr (by rw [withoutMark_append _ hne, withoutMark_of_isNameChar hcs])
  | operator hop =>
    have hops : operators.all (fun op => decide (withoutSigil op = op)) = true := by decide
    exact .inl (of_decide_eq_true (List.all_eq_true.1 hops _ hop))
  | item | setItem => exact .inl rfl

/-- The operators among the symbols that are shown without quotes are read, but for the bar. -/
theorem symbolName_of_mem_operatorSymbols (h : cs ∈ operatorSymbols) (hbar : cs ≠ ['|']) :
    SymbolName cs := by
  have hall : operatorSymbols.all (fun op => op == ['|'] ||
      (['[', ']'] :: ['[', ']', '='] :: operators).contains op) = true := by decide
  have hmem := List.all_eq_true.1 hall cs h
  rw [Bool.or_eq_true, beq_iff_eq, List.contains_iff_mem] at hmem
  exact readsAs_symbol_iff.1 (readsAs_operator cs (hmem.resolve_left hbar))

theorem symbolName_of_isName (hascii : ∀ c ∈ cs, c.toNat < 128)
    (hshape : withoutSigil cs = cs ∨ withoutMark cs = cs)
    (h : isName (withoutMark (withoutSigil cs)) = true) : SymbolName cs := by
  rcases withoutSigil_cases cs with hsigil | ⟨sigil, hsigil⟩
  · rw [hsigil] at h
    rcases withoutMark_cases cs with hmark | ⟨mark, hmark, heq⟩
    · rw [hmark] at h
      exact .word (isWord_of_isName hascii h)
    · rw [heq] at hascii ⊢
      have hword := isWord_of_isName (List.forall_mem_append.1 hascii).1 h
      rcases hmark with rfl | rfl | rfl
      · exact .marked hword (.inl rfl)
      · exact .marked hword (.inr rfl)
      · exact .setter hword
  · generalize withoutSigil cs = body at h hsigil hshape
    subst hsigil
    have hne : body ≠ [] := by
      rintro rfl
      cases h
    have hmark : withoutMark body = body := by
      rcases hshape with hself | hself
      · have hlength := congrArg List.length hself
        have hpos : 0 < sigil.text.toList.length := by cases sigil <;> decide
        rw [List.length_append] at hlength
        omega
      · rwa [withoutMark_append _ hne, List.append_cancel_left_eq] at hself
    rw [hmark] at h
    exact .sigiled sigil hne (isWord_of_isName (List.forall_mem_append.1 hascii).2 h).2

/-- Of the names that are shown without quotes, those that are read: not the bar, only ASCII
characters, and no mark behind a variable. -/
theorem symbolName_iff_of_isPlainSymbol (h : isPlainSymbol cs = true) :
    SymbolName cs ↔ cs ≠ ['|'] ∧ (∀ c ∈ cs, c.toNat < 128) ∧
      (withoutSigil cs = cs ∨ withoutMark cs = cs) := by
  constructor
  · intro hname
    refine ⟨?_, hname.ascii, withoutSigil_or_withoutMark hname⟩
    rintro rfl
    have hcuts : Lexer.CutsInto ":|" [(.symbol, "|")] :=
      Lexer.cutsInto_iff.2 (readsAs_symbol_iff.2 hname)
    exact absurd hcuts (by decide)
  · rintro ⟨hbar, hascii, hshape⟩
    rw [isPlainSymbol, Bool.or_eq_true, List.contains_iff_mem] at h
    exact h.elim (symbolName_of_mem_operatorSymbols · hbar) (symbolName_of_isName hascii hshape)

end Text

/-! ## Symbols as they are shown -/

namespace Lexer

open Lexeme

theorem cutsInto_symbol_iff {name : String} :
    CutsInto (":" ++ name) [(.symbol, name)] ↔ SymbolName name.toList := by
  have hreads := @readsAs_symbol_iff name.toList
  rw [String.ofList_toList] at hreads
  rw [cutsInto_iff, String.toList_append, ← hreads]
  rfl

/-- A symbol that is shown without quotes is read back exactly if it is not the bar, has only ASCII
characters, and is no variable with a mark behind it. -/
theorem plain_symbol_read_iff {name : String} (h : Text.isPlainSymbol name.toList = true) :
    Text.symbolText name = ":" ++ name ∧
      (CutsInto (":" ++ name) [(.symbol, name)] ↔
        name ≠ "|" ∧ (∀ c ∈ name.toList, c.toNat < 128) ∧
          (Text.withoutSigil name.toList = name.toList ∨
            Text.withoutMark name.toList = name.toList)) := by
  have hbar : name ≠ "|" ↔ name.toList ≠ ['|'] := not_congr String.toList_inj.symm
  refine ⟨?_, ?_⟩
  · rw [Text.symbolText, if_pos h]
    simp
  · rw [cutsInto_symbol_iff, Text.symbolName_iff_of_isPlainSymbol h, hbar]

/-- A setter, a variable with a mark, and a letter that is not of ASCII. -/
theorem plain_symbol_read_samples :
    (Text.symbolText "size=" = ":size=" ∧ CutsInto ":size=" [(.symbol, "size=")]) ∧
      (Text.symbolText "@size?" = ":@size?" ∧ ¬CutsInto ":@size?" [(.symbol, "@size?")]) ∧
      (Text.symbolText "é" = ":é" ∧ ¬CutsInto ":é" [(.symbol, "é")]) := by
  have hsetter := @plain_symbol_read_iff "size=" (by decide)
  have hmarked := @plain_symbol_read_iff "@size?" (by decide)
  have hletter := @plain_symbol_read_iff "é" (by decide)
  refine ⟨⟨hsetter.1, hsetter.2.2 ⟨by decide, ascii_of_all (by decide), .inl (by decide)⟩⟩,
    ⟨hmarked.1, fun h => ?_⟩, hletter.1, fun h => ?_⟩
  · exact absurd (hmarked.2.1 h).2.2 (by decide)
  · exact absurd ((hletter.2.1 h).2.1 'é' List.mem_cons_self) (by decide)

/-- The bar is shown without quotes and is not read back. -/
theorem bar_shown_but_not_read :
    Text.isPlainSymbol ['|'] = true ∧ Text.symbolText "|" = ":|" ∧
      ¬CutsInto ":|" [(.symbol, "|")] := by
  decide

end Lexer

/-! ## Symbols before an arrow -/

namespace Text

/-- Whether the name is a word with the mark behind it. -/
def isMarked (name : String) (mark : Char) : Bool :=
  name.toList.getLast? == some mark && isAsciiName (String.ofList name.toList.dropLast)

theorem isMarked_iff {name : String} {mark : Char} :
    isMarked name mark = true ↔ ∃ cs, Lexeme.IsWord cs ∧ name.toList = cs ++ [mark] := by
  rw [isMarked, Bool.and_eq_true, beq_iff_eq, Lexeme.isAsciiName_iff, String.toList_ofList]
  constructor
  · rintro ⟨hlast, hword⟩
    obtain ⟨cs, hcs⟩ := List.getLast?_eq_some_iff.1 hlast
    rw [hcs, List.dropLast_concat] at hword
    exact ⟨cs, hword, hcs⟩
  · rintro ⟨cs, hword, hcs⟩
    rw [hcs, List.getLast?_concat, List.dropLast_concat]
    exact ⟨rfl, hword⟩

end Text

namespace Lexeme

variable {cs : List Char}

/-- No operator begins like a word or a variable. -/
theorem notMem_operators {c : Char} (hc : isNameStart c = true ∨ c = '@' ∨ c = '$')
    (cs : List Char) : c :: cs ∉ operators := by
  have hall : operators.all
      (·.head?.all fun c => !(isNameStart c || c == '@' || c == '$')) = true := by decide
  intro hmem
  have hhead := List.all_eq_true.1 hall _ hmem
  rw [List.head?_cons, Option.all_some] at hhead
  rcases hc with hc | rfl | rfl
  · simp [hc] at hhead
  · exact absurd hhead (by decide)
  · exact absurd hhead (by decide)

theorem IsWord.notMem_operators (h : IsWord cs) (rest : List Char) : cs ++ rest ∉ operators := by
  cases cs with
  | nil => exact absurd h.1 (by decide)
  | cons c cs => exact Lexeme.notMem_operators (.inl h.1) _

theorem IsWord.cons_ne_append (h : IsWord cs) {c : Char} (hc : isNameStart c = false)
    (more rest : List Char) : c :: more ≠ cs ++ rest := by
  intro heq
  cases cs with
  | nil => exact absurd h.1 (by decide)
  | cons d cs => exact h.head?_ne hc (congrArg some (List.cons.inj heq).1.symm)

/-- A symbol, an arrow and a number. -/
def arrowContents (name : List Char) : List (TokenKind × String) :=
  [(.symbol, String.ofList name), (.operator, "=>"), (.integer, "1")]

theorem readsAs_arrow (h : symbol (cs ++ ['=', '>', '1']) = symbolOf cs) :
    ReadsAs (':' :: (cs ++ ['=', '>', '1'])) (arrowContents cs) := by
  have harrow : Lexer.CutsInto "=>1" [(.operator, "=>"), (.integer, "1")] := by decide
  exact (readsAs_of_firstToken? (firstToken?_symbol h)).2 ⟨rfl, Lexer.cutsInto_iff.1 harrow⟩

/-- The marks that may stand behind a word. -/
def marks : List Char := ['=', '?', '!']

theorem isNameChar_of_mem_marks {mark : Char} (hmark : mark ∈ marks) : isNameChar mark = false := by
  simp only [marks, List.mem_cons, List.not_mem_nil, or_false] at hmark
  rcases hmark with rfl | rfl | rfl <;> decide

/-- A mark behind a word is not part of the name before an equals sign. -/
theorem symbol_mark_equals (h : IsWord cs) {mark : Char} (hmark : mark ∈ marks)
    (rest : List Char) : symbol (cs ++ mark :: '=' :: rest) = symbolOf cs := by
  have hstop : ∀ c, (mark :: '=' :: rest).head? = some c → isNameChar c = false := fun c hc => by
    cases hc
    exact isNameChar_of_mem_marks hmark
  have hid : identifier (cs ++ mark :: '=' :: rest) = cs := by
    unfold identifier
    simp only [takeWhile_append_stop h.2 hstop, List.drop_left]
    exact if_neg fun hand => hand.2 rfl
  rw [symbol_of_isWord h, nameSymbol, hid, List.drop_left]
  simp only [marks, List.mem_cons, List.not_mem_nil, or_false] at hmark
  rcases hmark with rfl | rfl | rfl <;> rfl

theorem not_readsAs_marked (h : IsWord cs) {mark : Char} (hmark : mark ∈ marks) :
    ¬ReadsAs (':' :: (cs ++ [mark] ++ ['=', '>', '1'])) (arrowContents (cs ++ [mark])) := by
  have hfirst := firstToken?_symbol (symbol_mark_equals h hmark ['>', '1'])
  rw [List.append_assoc]
  intro hreads
  have hcontent := ((readsAs_of_firstToken? hfirst).1 hreads).1
  have hname := String.ofList_injective (congrArg Prod.snd hcontent)
  simp at hname

/-- An operator stands before an arrow as it is, unless there is one with an equals sign more. -/
theorem readsAs_operator_arrow_iff {op : List Char} (hop : op ∈ operators) :
    ReadsAs (':' :: (op ++ ['=', '>', '1'])) (arrowContents op) ↔ op ++ ['='] ∉ operators := by
  have hall : ∀ op ∈ operators, Lexer.CutsInto (String.ofList (':' :: (op ++ ['=', '>', '1'])))
      (arrowContents op) ↔ op ++ ['='] ∉ operators := by
    decide
  have hiff := hall op hop
  rwa [Lexer.cutsInto_iff, String.toList_ofList] at hiff

/-- What a name does before an arrow. -/
theorem readsAs_arrow_iff (h : SymbolName cs) :
    ReadsAs (':' :: (cs ++ ['=', '>', '1'])) (arrowContents cs) ↔
      (∀ mark ∈ marks, ∀ word, IsWord word → cs ≠ word ++ [mark]) ∧ cs ≠ ['[', ']'] ∧
        cs ++ ['='] ∉ operators := by
  cases h with
  | word hcs =>
    have hend : EndsName ['=', '>', '1'] := fun c hc => by cases hc; decide
    refine iff_of_true (readsAs_arrow (symbol_word hcs hend)) ⟨?_, ?_, hcs.notMem_operators _⟩
    · rintro mark hmark word - rfl
      have hin := hcs.2 mark (List.mem_append_right _ (List.mem_singleton_self _))
      rw [isNameChar_of_mem_marks hmark] at hin
      cases hin
    · rintro rfl
      exact absurd hcs.1 (by decide)
  | marked hcs hmark =>
    have hmem : _ ∈ marks := List.mem_cons_of_mem _ (by simpa using hmark)
    exact iff_of_false (not_readsAs_marked hcs hmem) fun h => h.1 _ hmem _ hcs rfl
  | setter hcs =>
    have hmem : '=' ∈ marks := List.mem_cons_self
    exact iff_of_false (not_readsAs_marked hcs hmem) fun h => h.1 _ hmem _ hcs rfl
  | sigiled sigil hne hcs =>
    have hstop : ∀ c, ['=', '>', '1'].head? = some c → isNameChar c = false := fun c hc => by
      cases hc
      decide
    refine iff_of_true (readsAs_arrow (symbol_variable sigil hne hcs _ hstop)) ⟨?_, ?_, ?_⟩
    · intro mark _ word hword
      cases sigil <;> exact hword.cons_ne_append (by decide) _ _
    · cases sigil <;> exact fun heq => absurd (List.cons.inj heq).1 (by decide)
    · cases sigil with
      | instanceVar | classVar => exact notMem_operators (.inr (.inl rfl)) _
      | globalVar => exact notMem_operators (.inr (.inr rfl)) _
  | operator hop =>
    rw [readsAs_operator_arrow_iff hop]
    refine ⟨fun hnot => ⟨?_, ?_, hnot⟩, fun h => h.2.2⟩
    · rintro mark - word hword rfl
      exact hword.notMem_operators _ hop
    · rintro rfl
      exact absurd hop (by decide)
  | item =>
    have hcuts : ¬Lexer.CutsInto ":[]=>1" (arrowContents ['[', ']']) := by decide
    exact iff_of_false (fun h => hcuts (Lexer.cutsInto_iff.2 h)) fun h => h.2.1 rfl
  | setItem =>
    have hcuts : Lexer.CutsInto ":[]==>1" (arrowContents ['[', ']', '=']) := by decide
    refine iff_of_true (Lexer.cutsInto_iff.1 hcuts) ⟨?_, by decide, by decide⟩
    exact fun mark _ word hword => hword.cons_ne_append (by decide) _ _

end Lexeme

namespace Lexer

open Lexeme

/-- A symbol stands before an arrow without a space exactly if its name is not that of the method
that reads items, does not end in a mark behind a word, and is no operator that is part of a longer
one with an equals sign more. -/
theorem symbol_before_arrow_iff {name : String}
    (hread : CutsInto (":" ++ name) [(.symbol, name)]) :
    CutsInto (":" ++ name ++ "=>1") [(.symbol, name), (.operator, "=>"), (.integer, "1")] ↔
      (∀ mark ∈ marks, Text.isMarked name mark = false) ∧ name ≠ "[]" ∧
        name.toList ++ ['='] ∉ operators := by
  have hmarked : ∀ mark, Text.isMarked name mark = false ↔
      ∀ word, IsWord word → name.toList ≠ word ++ [mark] := fun mark => by
    rw [Bool.eq_false_iff, ne_eq, Text.isMarked_iff, not_exists]
    exact forall_congr' fun word => not_and
  have hitem : name ≠ "[]" ↔ name.toList ≠ ['[', ']'] := not_congr String.toList_inj.symm
  have hiff := readsAs_arrow_iff (cutsInto_symbol_iff.1 hread)
  rw [arrowContents, String.ofList_toList] at hiff
  simp only [hmarked, hitem, ← hiff, cutsInto_iff]
  simp

/-- A variable and an operator that no equals sign continues, an operator that it does, and a word
with a mark. -/
theorem symbol_before_arrow_samples :
    CutsInto ":@@total=>1" [(.symbol, "@@total"), (.operator, "=>"), (.integer, "1")] ∧
      CutsInto ":<<=>1" [(.symbol, "<<"), (.operator, "=>"), (.integer, "1")] ∧
      ¬CutsInto ":**=>1" [(.symbol, "**"), (.operator, "=>"), (.integer, "1")] ∧
      ¬CutsInto ":empty?=>1" [(.symbol, "empty?"), (.operator, "=>"), (.integer, "1")] := by
  have hvariable := @symbol_before_arrow_iff "@@total" (by decide)
  have hshift := @symbol_before_arrow_iff "<<" (by decide)
  have hpower := @symbol_before_arrow_iff "**" (by decide)
  have hempty := @symbol_before_arrow_iff "empty?" (by decide)
  refine ⟨hvariable.2 ⟨by simp [Lexeme.marks, Text.isMarked], by decide⟩,
    hshift.2 ⟨by simp [Lexeme.marks, Text.isMarked], by decide⟩,
    fun h => (hpower.1 h).2.2 (by decide), fun h => ?_⟩
  exact absurd ((hempty.1 h).1 '?' (by decide)) (by decide)

/-- The sign for less than, with an arrow behind it, is the longest operator there. -/
theorem less_before_arrow_is_comparison :
    CutsInto ":<" [(.symbol, "<")] ∧
      ¬CutsInto ":<=>1" [(.symbol, "<"), (.operator, "=>"), (.integer, "1")] ∧
      CutsInto ":<=>1" [(.symbol, "<=>"), (.integer, "1")] := by
  decide

end Lexer

end Spinel
